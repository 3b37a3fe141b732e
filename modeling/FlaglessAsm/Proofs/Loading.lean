import FlaglessAsm.Image.Basic
import FlaglessAsm.Proofs.Assembly

/-!
# Loading a program

The directives of an assembled program write each instruction address once, in increasing order.  So
an image takes them, be it strict or not, and lists the words in the order in which they were
written.

## What is here

* `toList_insert_of_forall_lt`: a key behind all others goes to the end.
* `pairwise_instructionCells`, `pairwise_dataCells`: the addresses of words increase.
* `Image.exists_load_instructions`, `Image.exists_load_data`: the effect of runs of directives.
* `Assembled.exists_image`: the image of an assembled program.
-/

set_option autoImplicit false

namespace FlaglessAsm

open Std

/-! ## Growing maps -/

/-- A key behind all others goes to the end. -/
theorem toList_insert_of_forall_lt {β : Type} {m : TreeMap Address β} {a : Address}
    (h : ∀ p ∈ m.toList, p.1 < a) (v : β) : (m.insert a v).toList = m.toList ++ [(a, v)] := by
  have hfilter : m.toList.filter (fun p => !(a == p.1)) = m.toList := by
    refine List.filter_eq_self.2 fun p hp => ?_
    simpa using fun heq : a = p.1 => UInt32.lt_irrefl _ (heq ▸ h p hp)
  have hperm : (m.insert a v).toList.Perm (m.toList ++ [(a, v)]) := by
    have hinsert := TreeMap.toList_insert_perm (t := m) (k := a) (v := v)
    simp only [Bool.not_eq_true, Bool.decide_eq_false, hfilter] at hinsert
    exact hinsert.trans (List.perm_append_singleton _ _).symm
  refine hperm.eq_of_pairwise ?_ TreeMap.ordered_keys_toList ?_
  · intro p q _ _ hpq hqp
    exact absurd (compare_eq_lt.1 hqp) (UInt32.lt_asymm (compare_eq_lt.1 hpq))
  · refine List.pairwise_append.2 ⟨TreeMap.ordered_keys_toList, List.pairwise_singleton _ _, ?_⟩
    intro p hp q hq
    rw [List.mem_singleton.1 hq]
    exact compare_eq_lt.2 (h p hp)

/-- A new key stays in front of the keys that are still to come. -/
theorem forall_lt_of_insert {β γ : Type} {m : TreeMap Address β} {a : Address} {v : β}
    {address : γ → Address} {cells : List γ} (hm : ∀ p ∈ m.toList, p.1 < a)
    (hcells : ∀ p ∈ m.toList, ∀ c ∈ cells, p.1 < address c) (ha : ∀ c ∈ cells, a < address c) :
    ∀ p ∈ (m.insert a v).toList, ∀ c ∈ cells, p.1 < address c := by
  intro p hp c hc
  rw [toList_insert_of_forall_lt hm] at hp
  rcases List.mem_append.1 hp with hp | hp
  · exact hcells p hp c hc
  · rw [List.mem_singleton.1 hp]
    exact ha c hc

/-! ## Increasing addresses -/

/-- Consecutive addresses increase, as long as they do not reach the last one. -/
theorem pairwise_addresses {start : Address} {n : Nat} (h : start.toNat + n < UInt32.size) :
    ((List.range n).map fun k => start + UInt32.ofNat k).Pairwise (· < ·) := by
  refine List.pairwise_map.2 (List.pairwise_lt_range.imp_of_mem fun {j k} _ hk hlt => ?_)
  have hn := List.mem_range.1 hk
  rw [UInt32.lt_iff_toNat_lt, Address.toNat_add_ofNat (by omega),
    Address.toNat_add_ofNat (by omega)]
  omega

theorem map_address_instructionCells (start : Address) (words : List Word) :
    (instructionCells start words).map InstructionCell.address
      = (List.range words.length).map fun k => start + UInt32.ofNat k := by
  refine List.ext_getElem (by simp [instructionCells]) fun k _ _ => ?_
  simp [instructionCells]

theorem map_address_dataCells (start : Address) (halves : List (Word × Word)) :
    (dataCells start halves).map DataCell.address
      = (List.range halves.length).map fun k => start + UInt32.ofNat k := by
  refine List.ext_getElem (by simp [dataCells]) fun k _ _ => ?_
  simp [dataCells]

/-- The addresses of instruction words increase. -/
theorem pairwise_instructionCells {start : Address} {words : List Word}
    (h : start.toNat + words.length < UInt32.size) :
    (instructionCells start words).Pairwise (·.address < ·.address) := by
  have haddresses := pairwise_addresses h
  rw [← map_address_instructionCells] at haddresses
  exact List.pairwise_map.1 haddresses

/-- The addresses of data words increase. -/
theorem pairwise_dataCells {start : Address} {halves : List (Word × Word)}
    (h : start.toNat + halves.length < UInt32.size) :
    (dataCells start halves).Pairwise (·.address < ·.address) := by
  have haddresses := pairwise_addresses h
  rw [← map_address_dataCells] at haddresses
  exact List.pairwise_map.1 haddresses

/-! ## Runs of directives -/

namespace Image

theorem load_append (ds rest : List Directive) (img : Image) :
    load (ds ++ rest) img = (load ds >>= fun _ => load rest) img := by
  induction ds generalizing img with
  | nil => rfl
  | cons d ds ih =>
    change EStateM.bind (apply d) _ img = EStateM.bind (EStateM.bind (apply d) _) _ img
    simp only [EStateM.bind]
    cases apply d img with
    | error => rfl
    | ok _ img' => exact ih img'

/-- Data words at increasing addresses are listed in order. -/
theorem exists_load_data {cells : List DataCell} {img : Image}
    (hcells : cells.Pairwise (·.address < ·.address))
    (hfresh : ∀ p ∈ img.data.toList, ∀ c ∈ cells, p.1 < c.address) :
    ∃ data, load (cells.map DataCell.directive) img = .ok () { img with data } ∧
      data.toList = img.data.toList ++ cells.map fun c => (c.address, c.high, c.low) := by
  induction cells generalizing img with
  | nil => exact ⟨img.data, rfl, by simp⟩
  | cons c cells ih =>
    obtain ⟨hc, hcells⟩ := List.pairwise_cons.1 hcells
    have hbehind : ∀ p ∈ img.data.toList, p.1 < c.address :=
      fun p hp => hfresh p hp c (List.mem_cons_self ..)
    have hfresh' := forall_lt_of_insert (v := (c.high, c.low)) hbehind
      (fun p hp d hd => hfresh p hp d (List.mem_cons_of_mem _ hd)) hc
    obtain ⟨data, hload, htoList⟩ :=
      @ih { img with data := img.data.insert c.address (c.high, c.low) } hcells hfresh'
    refine ⟨data, hload, ?_⟩
    rw [htoList, toList_insert_of_forall_lt hbehind, List.append_assoc, List.map_cons,
      List.singleton_append]

/-- A write is taken, unless the image is strict and holds a word at its address. -/
theorem writeInstruction_of_not_refused {address : Address} {img : Image}
    (h : (img.instructions.contains address && img.strict) = false) (word : Word) :
    writeInstruction address word img
      = .ok () { img with instructions := img.instructions.insert address word } := by
  refine bind_eq_ok_iff.2 ⟨img, img, rfl, bind_eq_ok_iff.2 ⟨(), _, rfl, bind_eq_ok_iff.2
    ⟨_, _, rfl, ?_⟩⟩⟩
  exact congrFun (if_neg (by simp [h])) _

theorem writeInstruction_apply {address : Address} {img : Image}
    (h : ∀ p ∈ img.instructions.toList, p.1 < address) (word : Word) :
    writeInstruction address word img
      = .ok () { img with instructions := img.instructions.insert address word } := by
  have hnew : img.instructions.contains address = false := by
    rw [TreeMap.contains_eq_isSome_getElem?, Option.isSome_eq_false_iff, Option.isNone_iff_eq_none]
    refine Option.eq_none_iff_forall_ne_some.2 fun w hw => ?_
    exact UInt32.lt_irrefl _ (h _ (TreeMap.mem_toList_iff_getElem?_eq_some.2 hw))
  exact writeInstruction_of_not_refused (by rw [hnew, Bool.false_and]) word

/-- Instruction words at increasing addresses are all taken, and listed in order. -/
theorem exists_load_instructions {cells : List InstructionCell} {img : Image}
    (hcells : cells.Pairwise (·.address < ·.address))
    (hfresh : ∀ p ∈ img.instructions.toList, ∀ c ∈ cells, p.1 < c.address) :
    ∃ instructions, load (cells.map InstructionCell.directive) img
        = .ok () { img with instructions } ∧
      instructions.toList = img.instructions.toList ++ cells.map fun c => (c.address, c.word) := by
  induction cells generalizing img with
  | nil => exact ⟨img.instructions, rfl, by simp⟩
  | cons c cells ih =>
    obtain ⟨hc, hcells⟩ := List.pairwise_cons.1 hcells
    have hbehind : ∀ p ∈ img.instructions.toList, p.1 < c.address :=
      fun p hp => hfresh p hp c (List.mem_cons_self ..)
    have hfresh' := forall_lt_of_insert (v := c.word) hbehind
      (fun p hp d hd => hfresh p hp d (List.mem_cons_of_mem _ hd)) hc
    obtain ⟨instructions, hload, htoList⟩ :=
      @ih { img with instructions := img.instructions.insert c.address c.word } hcells hfresh'
    refine ⟨instructions,
      bind_eq_ok_iff.2 ⟨(), _, writeInstruction_apply hbehind c.word, hload⟩, ?_⟩
    rw [htoList, toList_insert_of_forall_lt hbehind, List.append_assoc, List.map_cons,
      List.singleton_append]

end Image

/-! ## Programs -/

section
variable {config : Config} {ss : List SourceStatement} {p : Program}

theorem Program.toList_data {data : List DataCell} {text : List InstructionCell}
    (h : p.words.toList = [.pcReset] ++ data.map DataCell.directive
      ++ text.map InstructionCell.directive) :
    p.data.toList = data.map fun c => (c.address, c.high, c.low) := by
  rw [Program.data, Array.toList_filterMap, h]
  simp [List.filterMap_map, Function.comp_def, DataCell.directive, InstructionCell.directive]

/-- **An assembled program can be loaded**, and its image lists its words. -/
theorem Assembled.exists_image (h : Assembled config ss p) (strict : Bool) :
    ∃ instructions data,
      Image.load p.words.toList { strict } = .ok () { strict, resets := 1, instructions, data } ∧
      instructions.toList = p.instructions.toList ∧ data.toList = p.data.toList := by
  obtain ⟨halves, words, hvalues, hwords, hlist⟩ := h.words_eq
  have hhalves : (dataValues ss).length = halves.length := by
    simpa using congrArg List.length hvalues
  have htextRoom := h.encodable.textRoom
  rw [position, ← length_of_directWords?_eq_some config hwords] at htextRoom
  obtain ⟨data, hdata, hdataList⟩ := @Image.exists_load_data _ { strict, resets := 1 }
    (pairwise_dataCells (hhalves ▸ h.encodable.dataRoom)) (by simp)
  obtain ⟨instructions, htext, htextList⟩ := @Image.exists_load_instructions _
    { strict, resets := 1, data } (pairwise_instructionCells htextRoom) (by simp)
  refine ⟨instructions, data, ?_, ?_, ?_⟩
  · rw [hlist, Image.load_append]
    refine bind_eq_ok_iff.2 ⟨(), _, ?_, htext⟩
    rw [Image.load_append]
    exact bind_eq_ok_iff.2 ⟨(), _, rfl, hdata⟩
  · rw [htextList, Program.toList_instructions hlist]
    rfl
  · rw [hdataList, Program.toList_data hlist]
    rfl

/-- The instruction words of the image of a program. -/
theorem Assembled.exists_load (h : Assembled config ss p) (strict : Bool) :
    ∃ img, Image.load p.words.toList { strict } = .ok () img ∧
      img.instructions.toList = p.instructions.toList := by
  obtain ⟨instructions, data, hload, hinstructions, -⟩ := h.exists_image strict
  exact ⟨_, hload, hinstructions⟩

end

end FlaglessAsm
