import FlaglessAsm.Image.Section
import Mathlib.Data.List.Basic
import Mathlib.Data.List.Pairwise

/-!
# Sections are the maximal runs of a memory

The sections of a memory are found by walking through its addresses, one at a time, and extending
the run at hand or starting a new one.  Whatever gaps there are, the outcome is the only one
possible: ranges that are not empty, that hold the written addresses and nothing else, and of which
no two touch.  That ranges do not touch makes them maximal, so it is the part of the invariant that
each step has to keep.

## What is here

* `Run.Contains`, `AreRunsOf`: the runs of a set of numbers.
* `AreRunsOf.extend`, `areRunsOf_runs`: one step of the walk, and the whole walk.
* `AreRunsOf.not_mem_of_touches`: runs are maximal.
* `Partitions`: the sections of a memory.
* `sections_partition_memories`: the sections of an image.
-/

set_option autoImplicit false

namespace FlaglessAsm

open Std

/-! ## Runs -/

/-- A number lies in a range. -/
def Run.Contains (r : Run) (n : Nat) : Prop :=
  r.start ≤ n ∧ n < r.stop

/-- The runs of a set of numbers, in increasing order: ranges that are not empty, with a gap between
each two, which hold the numbers of the set and no others. -/
structure AreRunsOf (written : Nat → Prop) (rs : List Run) : Prop where
  nonempty : ∀ r ∈ rs, r.start < r.stop
  separated : rs.Pairwise fun r s => r.stop < s.start
  contains_iff : ∀ n, (∃ r ∈ rs, r.Contains n) ↔ written n

section
variable {written : Nat → Prop} {rs : List Run}

theorem AreRunsOf.written_start (h : AreRunsOf written rs) {r : Run} (hr : r ∈ rs) :
    written r.start :=
  (h.contains_iff r.start).1 ⟨r, hr, Nat.le_refl _, h.nonempty r hr⟩

/-- A number below all others extends the first run, or is a run of its own. -/
theorem AreRunsOf.extend (h : AreRunsOf written rs) {a : Nat} (ha : ∀ n, written n → a < n) :
    AreRunsOf (fun n => n = a ∨ written n) (extendRuns a rs) := by
  have hsingle (n : Nat) : (Run.mk a (a + 1)).Contains n ↔ n = a := by
    simp only [Run.Contains]
    omega
  obtain ⟨hnonempty, hseparated, hcontains⟩ := h
  cases rs with
  | nil =>
    refine ⟨by simp [extendRuns], by simp [extendRuns], fun n => ?_⟩
    rw [← hcontains n]
    simp [extendRuns, hsingle]
  | cons run rest =>
    have hstart : a < run.start :=
      ha _ (AreRunsOf.written_start ⟨hnonempty, hseparated, hcontains⟩ (List.mem_cons_self ..))
    rw [List.forall_mem_cons] at hnonempty
    obtain ⟨hrun, hrest⟩ := hnonempty
    obtain ⟨hfirst, hlater⟩ := List.pairwise_cons.1 hseparated
    simp only [List.exists_mem_cons_iff] at hcontains
    rw [extendRuns]
    split
    · next htouch =>
      refine ⟨List.forall_mem_cons.2 ⟨Nat.lt_trans hstart hrun, hrest⟩,
        List.pairwise_cons.2 ⟨hfirst, hlater⟩, fun n => ?_⟩
      have hextended : (Run.mk a run.stop).Contains n ↔ n = a ∨ run.Contains n := by
        simp only [Run.Contains]
        omega
      rw [List.exists_mem_cons_iff, hextended, or_assoc, hcontains]
    · next hgap =>
      -- The first run starts behind the gap, and the later ones behind the first.
      have hbehind : ∀ s ∈ run :: rest, a + 1 < s.start := by
        refine List.forall_mem_cons.2 ⟨by omega, fun s hs => ?_⟩
        have := hfirst s hs
        omega
      refine ⟨List.forall_mem_cons.2 ⟨Nat.lt_succ_self a, List.forall_mem_cons.2 ⟨hrun, hrest⟩⟩,
        List.pairwise_cons.2 ⟨hbehind, hseparated⟩, fun n => ?_⟩
      rw [List.exists_mem_cons_iff, List.exists_mem_cons_iff, hsingle, hcontains]

/-- **The runs of an increasing list of addresses.** -/
theorem areRunsOf_runs {addresses : List Address} (h : addresses.Pairwise (· < ·)) :
    AreRunsOf (fun n => ∃ a ∈ addresses, a.toNat = n) (runs addresses) := by
  induction addresses with
  | nil => exact ⟨List.forall_mem_nil _, .nil, by simp [runs]⟩
  | cons a addresses ih =>
    obtain ⟨hfirst, hrest⟩ := List.pairwise_cons.1 h
    have hstep := (ih hrest).extend (a := a.toNat) (by
      rintro _ ⟨b, hb, rfl⟩
      exact UInt32.lt_iff_toNat_lt.1 (hfirst b hb))
    have hwritten : (fun n => ∃ b ∈ a :: addresses, b.toNat = n)
        = fun n => n = a.toNat ∨ ∃ b ∈ addresses, b.toNat = n := by
      funext n
      rw [List.exists_mem_cons_iff, eq_comm (a := n)]
    rw [hwritten]
    exact hstep

/-- **Runs are maximal**: the numbers on either side of a run are not in the set. -/
theorem AreRunsOf.not_mem_of_touches (h : AreRunsOf written rs) {r : Run} (hr : r ∈ rs) {n : Nat}
    (hn : n = r.stop ∨ n + 1 = r.start) : ¬ written n := by
  intro hwritten
  obtain ⟨s, hs, hstart, hstop⟩ := (h.contains_iff n).2 hwritten
  have hsymm : Std.Symm fun r s : Run => r.stop < s.start ∨ s.stop < r.start :=
    ⟨fun _ _ => Or.symm⟩
  have hapart : rs.Pairwise fun r s => r.stop < s.start ∨ s.stop < r.start :=
    h.separated.imp Or.inl
  have hrun := h.nonempty r hr
  by_cases hrs : r = s
  · subst hrs
    omega
  · have := hapart.forall hr hs hrs
    omega

end

/-! ## Sections -/

/-- The sections of a memory: they are of one kind, they are numbered by increasing address, their
ends are addresses, and their ranges are the runs of the written addresses, each of them maximal. -/
structure Partitions (kind : String) (written : Address → Prop) (ss : List Section) : Prop where
  kind_eq : ∀ s ∈ ss, s.kind = kind
  names_eq : ss.map Section.name = (List.range ss.length).map fun i => kind ++ toString i
  stop_lt : ∀ s ∈ ss, s.range.stop < UInt32.size
  ranges : AreRunsOf (fun n => ∃ a, written a ∧ a.toNat = n) (ss.map Section.range)
  maximal : ∀ s ∈ ss, ∀ a, a.toNat = s.range.stop ∨ a.toNat + 1 = s.range.start → ¬ written a

namespace Section

variable (memory : Memory) (addresses : List Address)

theorem map_range_ofAddresses :
    (ofAddresses memory addresses).map Section.range = runs addresses := by
  rw [ofAddresses, List.map_map]
  exact List.zipIdx_map_fst 0 (runs addresses)

/-- Sections are numbered in order. -/
theorem map_name_ofAddresses {kind : String}
    (hkind : ∀ number range, Section.kind ⟨memory, number, range⟩ = kind) :
    (ofAddresses memory addresses).map Section.name
      = (List.range (ofAddresses memory addresses).length).map fun i => kind ++ toString i := by
  have hname : Section.name ∘ (fun p : Run × Nat => (⟨memory, p.2, p.1⟩ : Section))
      = (fun i : Nat => kind ++ toString i) ∘ Prod.snd := by
    funext p
    rw [Function.comp_apply, Section.name, hkind]
    rfl
  rw [ofAddresses, List.map_map, List.length_map, List.length_zipIdx, List.range_eq_range',
    ← List.zipIdx_map_snd, List.map_map, ← hname]

variable {memory addresses}

theorem kind_of_mem_ofAddresses {kind : String}
    (hkind : ∀ number range, Section.kind ⟨memory, number, range⟩ = kind) {s : Section}
    (hs : s ∈ ofAddresses memory addresses) : s.kind = kind := by
  obtain ⟨p, -, rfl⟩ := List.mem_map.1 hs
  exact hkind p.2 p.1

/-- **The sections of a memory partition its written addresses.** -/
theorem partitions_ofAddresses (memory : Memory) {kind : String}
    (hkind : ∀ number range, Section.kind ⟨memory, number, range⟩ = kind)
    (hsorted : addresses.Pairwise (· < ·)) (hlast : 0xffffffff ∉ addresses) :
    Partitions kind (· ∈ addresses) (ofAddresses memory addresses) := by
  have hruns := areRunsOf_runs hsorted
  have hmem {s : Section} (hs : s ∈ ofAddresses memory addresses) : s.range ∈ runs addresses := by
    rw [← map_range_ofAddresses memory]
    exact List.mem_map_of_mem hs
  refine ⟨fun s => kind_of_mem_ofAddresses hkind, map_name_ofAddresses memory addresses hkind,
    fun s hs => ?_, ?_, fun s hs a ha hwritten => ?_⟩
  · -- The last address of a section is written, so it is not the last one of all.
    have hnonempty := hruns.nonempty _ (hmem hs)
    obtain ⟨a, ha, hstop⟩ := (hruns.contains_iff (s.range.stop - 1)).1
      ⟨s.range, hmem hs, by omega, by omega⟩
    have hne : a.toNat ≠ (0xffffffff : Address).toNat := by
      intro heq
      exact hlast (UInt32.toNat_inj.1 heq ▸ ha)
    have hlt := a.toNat_lt_size
    have hsize : UInt32.size = (0xffffffff : Address).toNat + 1 := rfl
    omega
  · rw [map_range_ofAddresses]
    exact hruns
  · exact hruns.not_mem_of_touches (hmem hs) ha ⟨a, hwritten, rfl⟩

end Section

/-! ## The sections of an image -/

theorem pairwise_lt_keys {α : Type} (t : TreeMap Address α) : t.keys.Pairwise (· < ·) :=
  TreeMap.ordered_keys.imp fun h => compare_eq_lt.1 h

/-- **The sections of an image partition its memories into maximal runs**, first the instruction
memory and then the data memory, if neither has a word at the last address of all. -/
theorem sections_partition_memories (img : Image) (htext : 0xffffffff ∉ img.instructions)
    (hdata : 0xffffffff ∉ img.data) :
    ∃ text data, img.sections = text ++ data ∧
      Partitions "text" (· ∈ img.instructions) text ∧ Partitions "data" (· ∈ img.data) data := by
  have htextParts := Section.partitions_ofAddresses .instruction (fun _ _ => rfl)
    (pairwise_lt_keys img.instructions) (mt TreeMap.mem_keys.1 htext)
  have hdataParts := Section.partitions_ofAddresses .data (fun _ _ => rfl)
    (pairwise_lt_keys img.data) (mt TreeMap.mem_keys.1 hdata)
  simp only [TreeMap.mem_keys] at htextParts hdataParts
  exact ⟨_, _, rfl, htextParts, hdataParts⟩

/-- An image with a gap in its instruction memory. -/
def gappedImage : Image where
  instructions := ((TreeMap.insert ∅ 0 0).insert 1 0).insert 5 0
  data := TreeMap.insert ∅ 0 (0, 1)

/-- The instruction memory of the image has two sections, its data memory has one. -/
theorem sections_partition_of_gappedImage :
    0xffffffff ∉ gappedImage.instructions ∧ 0xffffffff ∉ gappedImage.data ∧
    gappedImage.sections.map (fun s => (s.name, s.range))
      = [("text0", ⟨0, 2⟩), ("text1", ⟨5, 6⟩), ("data0", ⟨0, 1⟩)] ∧
    ∃ text data, gappedImage.sections = text ++ data ∧
      Partitions "text" (· ∈ gappedImage.instructions) text ∧
      Partitions "data" (· ∈ gappedImage.data) data :=
  ⟨by decide +kernel, by decide +kernel, by decide +kernel,
    sections_partition_memories gappedImage (by decide +kernel) (by decide +kernel)⟩

end FlaglessAsm
