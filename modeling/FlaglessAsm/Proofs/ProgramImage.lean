import FlaglessAsm.Image.Section
import FlaglessAsm.Proofs.Loading

/-!
# The image of a program

An assembled program is followed by directives that run the machine, step it and read data back.
They write nothing, so the image holds the words of the program: one behind the other from the start
of either memory, and none at the last address.  Its sections are therefore at most two, and the
ends of these are addresses themselves.

## What is here

* `Directive.isControl`, `Program.pushAll`: what may follow a program.
* `Image.exists_load_of_isControl`: such directives leave both memories alone.
* `Assembled.exists_image_pushAll`: the image of a program with such directives behind it.
* `foldr_extendRuns_range'`, `Section.ofAddresses_consecutive`: consecutive addresses are one
  section.
* `contiguous_image_of_assemble`: both memories and the sections of the image.
-/

set_option autoImplicit false

namespace FlaglessAsm

open Std

/-! ## Directives behind a program -/

/-- Whether a directive runs the machine, steps it or reads from it, and so writes nothing. -/
def Directive.isControl : Directive → Bool
  | .run _ | .step | .dataRead _ => true
  | .dataWrite .. | .instructionWrite .. | .pcReset => false

namespace Program

variable (p : Program) {ds : List Directive}

/-- Appends a list of directives, one by one. -/
def pushAll (ds : List Directive) : Program :=
  ds.foldl push p

theorem toList_words_pushAll (ds : List Directive) :
    (p.pushAll ds).words.toList = p.words.toList ++ ds := by
  induction ds generalizing p with
  | nil => exact (List.append_nil _).symm
  | cons d ds ih =>
    refine (ih (p.push d)).trans ?_
    simp [push]

theorem symbols_pushAll (ds : List Directive) : (p.pushAll ds).symbols = p.symbols := by
  induction ds generalizing p with
  | nil => rfl
  | cons d ds ih => exact ih (p.push d)

/-- A directive that writes nothing leaves the contents of a program alone. -/
theorem contents_push {d : Directive} (hd : d.isControl = true) :
    (p.push d).instructions = p.instructions ∧ (p.push d).data = p.data := by
  cases d with
  | run | step | dataRead => simp [push, instructions, data]
  | dataWrite | instructionWrite | pcReset => cases hd

/-- So do any number of them. -/
theorem contents_pushAll (hds : ∀ d ∈ ds, d.isControl = true) :
    (p.pushAll ds).instructions = p.instructions ∧ (p.pushAll ds).data = p.data := by
  induction ds generalizing p with
  | nil => exact ⟨rfl, rfl⟩
  | cons d ds ih =>
    obtain ⟨hd, hds⟩ := List.forall_mem_cons.1 hds
    obtain ⟨hinstructions, hdata⟩ := p.contents_push hd
    obtain ⟨hinstructions', hdata'⟩ := ih (p.push d) hds
    exact ⟨hinstructions'.trans hinstructions, hdata'.trans hdata⟩

end Program

namespace Image

/-- A directive that writes nothing is never refused, and leaves both memories alone. -/
theorem exists_apply_of_isControl {d : Directive} (hd : d.isControl = true) (img : Image) :
    ∃ img', apply d img = .ok () img' ∧ img'.instructions = img.instructions ∧
      img'.data = img.data ∧ img'.resets = img.resets := by
  cases d with
  | run | step | dataRead => exact ⟨_, rfl, rfl, rfl, rfl⟩
  | dataWrite | instructionWrite | pcReset => cases hd

/-- The same holds of a list of them. -/
theorem exists_load_of_isControl {ds : List Directive} (hds : ∀ d ∈ ds, d.isControl = true)
    (img : Image) :
    ∃ img', load ds img = .ok () img' ∧ img'.instructions = img.instructions ∧
      img'.data = img.data ∧ img'.resets = img.resets := by
  induction ds generalizing img with
  | nil => exact ⟨img, rfl, rfl, rfl, rfl⟩
  | cons d ds ih =>
    obtain ⟨hd, hds⟩ := List.forall_mem_cons.1 hds
    obtain ⟨mid, happly, hinstructions, hdata, hresets⟩ := exists_apply_of_isControl hd img
    obtain ⟨img', hload, hinstructions', hdata', hresets'⟩ := ih hds mid
    exact ⟨img', bind_eq_ok_iff.2 ⟨(), mid, happly, hload⟩, hinstructions'.trans hinstructions,
      hdata'.trans hdata, hresets'.trans hresets⟩

end Image

section
variable {config : Config} {ss : List SourceStatement} {p : Program} {ds : List Directive}

/-- **An assembled program can be loaded with such directives behind it**, and its image lists its
words. -/
theorem Assembled.exists_image_pushAll (h : Assembled config ss p)
    (hds : ∀ d ∈ ds, d.isControl = true) (strict : Bool) :
    ∃ img : Image, Image.load (p.pushAll ds).words.toList { strict } = .ok () img ∧
      img.resets = 1 ∧ img.instructions.toList = p.instructions.toList ∧
      img.data.toList = p.data.toList := by
  obtain ⟨instructions, data, hload, hinstructions, hdata⟩ := h.exists_image strict
  obtain ⟨img, hcontrol, hinstructions', hdata', hresets⟩ :=
    Image.exists_load_of_isControl hds { strict, resets := 1, instructions, data }
  refine ⟨img, ?_, hresets, by rw [hinstructions', hinstructions], by rw [hdata', hdata]⟩
  rw [p.toList_words_pushAll, Image.load_append]
  exact bind_eq_ok_iff.2 ⟨(), _, hload, hcontrol⟩

/-! ## Consecutive addresses -/

/-- The words of a memory, one behind the other from an address on. -/
def consecutive {α : Type} (start : Address) (contents : List α) : List (Address × α) :=
  contents.mapIdx fun k content => (start + UInt32.ofNat k, content)

theorem map_snd_consecutive {α : Type} (start : Address) (contents : List α) :
    (consecutive start contents).map Prod.snd = contents := by
  simp [consecutive, List.mapIdx_eq_zipIdx_map, Function.comp_def]

theorem map_fst_consecutive {α : Type} (start : Address) (contents : List α) :
    (consecutive start contents).map Prod.fst
      = (List.range contents.length).map fun k => start + UInt32.ofNat k := by
  refine List.ext_getElem (by simp [consecutive]) fun k _ _ => ?_
  simp [consecutive]

/-- The instruction words of an assembled program. -/
theorem Assembled.instructions_eq_consecutive (h : Assembled config ss p) :
    p.instructions.toList = consecutive config.textStart (p.instructions.toList.map Prod.snd) := by
  obtain ⟨halves, words, -, -, hlist⟩ := h.words_eq
  have hcells : p.instructions.toList = consecutive config.textStart words := by
    rw [Program.toList_instructions hlist]
    simp [instructionCells, consecutive, List.mapIdx_eq_zipIdx_map]
  rw [hcells, map_snd_consecutive]

/-- The data words of an assembled program. -/
theorem Assembled.data_eq_consecutive (h : Assembled config ss p) :
    p.data.toList = consecutive config.dataStart (p.data.toList.map Prod.snd) := by
  obtain ⟨halves, words, -, -, hlist⟩ := h.words_eq
  have hcells : p.data.toList = consecutive config.dataStart halves := by
    rw [Program.toList_data hlist]
    simp [dataCells, consecutive, List.mapIdx_eq_zipIdx_map]
  rw [hcells, map_snd_consecutive]

theorem Assembled.textRoom (h : Assembled config ss p) :
    config.textStart.toNat + p.instructions.size < UInt32.size := by
  rw [h.size_instructions, h.position_eq]
  exact h.encodable.textRoom

theorem Assembled.size_data (h : Assembled config ss p) :
    p.data.size = (dataValues ss).length := by
  obtain ⟨halves, words, hvalues, -, hlist⟩ := h.words_eq
  have hhalves : (dataValues ss).length = halves.length := by
    simpa using congrArg List.length hvalues
  rw [← Array.length_toList, Program.toList_data hlist, hhalves]
  simp [dataCells]

theorem Assembled.dataRoom (h : Assembled config ss p) :
    config.dataStart.toNat + p.data.size < UInt32.size := by
  rw [h.size_data]
  exact h.encodable.dataRoom

end

/-! ## Sections -/

/-- An increasing row of numbers without gaps is one run. -/
theorem foldr_extendRuns_range' (start n : Nat) :
    (List.range' start (n + 1)).foldr extendRuns [] = [⟨start, start + (n + 1)⟩] := by
  induction n generalizing start with
  | zero => rfl
  | succ n ih =>
    -- The later numbers are one run already, and the first one stands right in front of it.
    have hstop : start + 1 + (n + 1) = start + (n + 1 + 1) := by omega
    rw [List.range'_succ, List.foldr_cons, ih, hstop, extendRuns, if_pos rfl]

/-- Consecutive addresses in front of the last one are one section. -/
theorem Section.ofAddresses_consecutive (memory : Memory) {start : Address} {n : Nat}
    (h : start.toNat + n < UInt32.size) :
    ofAddresses memory ((List.range n).map fun k => start + UInt32.ofNat k)
      = if 0 < n then [⟨memory, 0, ⟨start.toNat, start.toNat + n⟩⟩] else [] := by
  have hnumbers : ((List.range n).map fun k => start + UInt32.ofNat k).map UInt32.toNat
      = List.range' start.toNat n := by
    rw [List.range'_eq_map_range, List.map_map]
    refine List.map_congr_left fun k hk => ?_
    have hlt := List.mem_range.1 hk
    exact Address.toNat_add_ofNat (by omega)
  rw [ofAddresses, runs, hnumbers]
  cases n with
  | zero => rfl
  | succ n =>
    rw [foldr_extendRuns_range']
    rfl

theorem decimal_zero : Text.decimal (0 : Nat) = "0" := by
  simp [Text.decimal]

/-- The sections of an image that holds words at consecutive addresses. -/
theorem Image.sections_of_consecutive {img : Image} {textStart dataStart : Address}
    {words : List Word} {halves : List (Word × Word)}
    (htext : img.instructions.toList = consecutive textStart words)
    (hdata : img.data.toList = consecutive dataStart halves)
    (htextRoom : textStart.toNat + words.length < UInt32.size)
    (hdataRoom : dataStart.toNat + halves.length < UInt32.size) :
    img.sections
      = (if 0 < words.length then
          [⟨.instruction, 0, ⟨textStart.toNat, textStart.toNat + words.length⟩⟩] else [])
        ++ if 0 < halves.length then
          [⟨.data, 0, ⟨dataStart.toNat, dataStart.toNat + halves.length⟩⟩] else [] := by
  rw [sections, ← TreeMap.map_fst_toList_eq_keys, ← TreeMap.map_fst_toList_eq_keys, htext, hdata,
    map_fst_consecutive, map_fst_consecutive, Section.ofAddresses_consecutive _ htextRoom,
    Section.ofAddresses_consecutive _ hdataRoom]

/-- The address behind a word of such a memory is an address. -/
theorem toNat_add_one_lt_of_consecutive {α : Type} {m : TreeMap Address α} {start : Address}
    {contents : List α} (hm : m.toList = consecutive start contents)
    (hroom : start.toNat + contents.length < UInt32.size) {a : Address} (ha : a ∈ m) :
    a.toNat + 1 < UInt32.size := by
  rw [← TreeMap.mem_keys, ← TreeMap.map_fst_toList_eq_keys, hm, map_fst_consecutive] at ha
  obtain ⟨k, hk, rfl⟩ := List.mem_map.1 ha
  have hlt := List.mem_range.1 hk
  rw [Address.toNat_add_ofNat (by omega)]
  omega

/-! ## From source text to sections -/

/-- **Assembled programs load cleanly and without gaps**, whatever directives that write nothing
stand behind them.  A strict image takes them, is reset once, and holds the `k`-th word of either
kind at the `k`-th address from its start.  So there is at most one section per memory; it ends
behind the last word, and no end that is computed on the way is larger than the last address. -/
theorem contiguous_image_of_assemble {config : Config} {lines : List SourceLine} {p : Program}
    (h : assemble config lines = .ok p) {ds : List Directive}
    (hds : ∀ d ∈ ds, d.isControl = true) :
    ∃ (img : Image) (words : List Word) (halves : List (Word × Word)),
      (Image.load (p.pushAll ds).words.toList).run { strict := true } = .ok () img ∧
      img.resets = 1 ∧
      words = (p.pushAll ds).instructions.toList.map Prod.snd ∧
      halves = (p.pushAll ds).data.toList.map Prod.snd ∧
      img.instructions.toList
        = words.mapIdx (fun k word => (config.textStart + UInt32.ofNat k, word)) ∧
      img.data.toList
        = halves.mapIdx (fun k half => (config.dataStart + UInt32.ofNat k, half)) ∧
      config.textStart.toNat + words.length < UInt32.size ∧
      config.dataStart.toNat + halves.length < UInt32.size ∧
      img.sections.map (fun s => (s.name, s.kind, s.range.start, s.range.stop))
        = (if 0 < words.length then [("text0", "text", config.textStart.toNat,
            config.textStart.toNat + words.length)] else [])
          ++ (if 0 < halves.length then [("data0", "data", config.dataStart.toNat,
            config.dataStart.toNat + halves.length)] else []) ∧
      (∀ a, a ∈ img.instructions ∨ a ∈ img.data → a.toNat + 1 < UInt32.size) := by
  obtain ⟨ss, -, hp⟩ := assembled_of_assemble_eq_ok h
  obtain ⟨img, hload, hresets, hinstructions, hdata⟩ := hp.exists_image_pushAll hds true
  obtain ⟨hpush, hpush'⟩ := p.contents_pushAll hds
  have htext := hinstructions.trans hp.instructions_eq_consecutive
  have hdata := hdata.trans hp.data_eq_consecutive
  have htextRoom : config.textStart.toNat + (p.instructions.toList.map Prod.snd).length
      < UInt32.size := by
    simpa using hp.textRoom
  have hdataRoom : config.dataStart.toNat + (p.data.toList.map Prod.snd).length
      < UInt32.size := by
    simpa using hp.dataRoom
  refine ⟨img, _, _, hload, hresets, by rw [hpush], by rw [hpush'], htext, hdata, htextRoom,
    hdataRoom, ?_, ?_⟩
  · rw [Image.sections_of_consecutive htext hdata htextRoom hdataRoom, List.map_append,
      apply_ite (List.map _), apply_ite (List.map _)]
    simp only [List.map_cons, List.map_nil, Section.name, Section.kind, decimal_zero]
    rfl
  · rintro a (ha | ha)
    · exact toNat_add_one_lt_of_consecutive htext htextRoom ha
    · exact toNat_add_one_lt_of_consecutive hdata hdataRoom ha

/-- The loop, run for one step and with its data word read back. -/
theorem contiguous_image_of_loop : ∃ p img, assemble loopConfig loopSource = .ok p ∧
    (Image.load (p.pushAll [.run true, .step, .dataRead 4]).words.toList).run { strict := true }
      = .ok () img ∧
    img.resets = 1 ∧
    img.sections.map (fun s => (s.name, s.kind, s.range.start, s.range.stop))
      = [("text0", "text", 16, 31), ("data0", "data", 4, 5)] := by
  obtain ⟨p, hp⟩ := exists_assemble_loop
  have hds : ∀ d ∈ [.run true, .step, .dataRead 4], Directive.isControl d = true := by decide
  obtain ⟨img, words, halves, hload, hresets, hwords, hhalves, -, -, -, -, hsections, -⟩ :=
    contiguous_image_of_assemble hp hds
  obtain ⟨ss, hread, hassembled⟩ := assembled_of_assemble_eq_ok hp
  obtain rfl : loopStatements = ss := Except.ok.inj (readAll_loopSource.symm.trans hread)
  obtain ⟨hinstructions, hdata⟩ := p.contents_pushAll hds
  have hwords : words.length = 15 := by
    rw [hwords, hinstructions, List.length_map, Array.length_toList, hassembled.size_instructions]
    rfl
  have hhalves : halves.length = 1 := by
    rw [hhalves, hdata, List.length_map, Array.length_toList, hassembled.size_data]
    rfl
  refine ⟨p, img, hp, hload, hresets, ?_⟩
  rw [hsections, hwords, hhalves]
  rfl

end FlaglessAsm
