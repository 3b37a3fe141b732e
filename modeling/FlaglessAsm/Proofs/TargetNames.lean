import FlaglessAsm.Proofs.ControlFlow
import FlaglessAsm.Proofs.Numerals

/-!
# Targets and their names

An image is listed with the address that each branch reaches, and with names for these addresses.
The addresses that are shown, those of the control transfers and those that have names are worked
out apart from each other.  They agree for every image, whatever words it holds: a branch that
leaves the address space has no target, and every other one goes where its text says, to an address
with a name of its own.

## What is here

* `Text.hexDigits_inj`: padded numerals of different numbers are different.
* `Image.mem_edges_iff`, `exists_edgeAt_iff`: where control transfers come from.
* `Condition.branchText`: the text of a branch to an address, letter by letter.
* `exists_ofInt?_iff`, `disassemble_of_target`: the target of a branch, and its text.
* `Image.getElem?_labels`: the names of addresses.
* `names_match_targets`: what is shown, what is reached and what has a name.
-/

set_option autoImplicit false

namespace FlaglessAsm

open Std Text

/-! ## Numerals of a fixed width -/

namespace Text

theorem digitsFrom?_replicate_zero (radix k : Nat) (hradix : 0 < radix) :
    digitsFrom? radix 0 (List.replicate k '0') = some 0 := by
  induction k with
  | zero => rfl
  | succ k ih =>
    have hzero : digit? radix '0' = some 0 := by simp [digit?, hradix]
    rw [List.replicate_succ, digitsFrom?, hzero]
    simpa using ih

/-- Zeros in front of a numeral do not hide its number. -/
theorem hexDigits_inj {width m n : Nat} (h : hexDigits width m = hexDigits width n) : m = n := by
  have hread (k : Nat) : digitsFrom? 16 0 (hexDigits width k).toList = some k := by
    rw [hexDigits, String.toList_ofList, List.leftpad, digitsFrom?_append,
      digitsFrom?_replicate_zero 16 _ (by decide), Option.bind_some,
      digitsFrom?_toDigits (by decide) (by decide)]
  exact Option.some.inj ((hread m).symm.trans ((congrArg _ (congrArg _ h)).trans (hread n)))

end Text

/-! ## Control transfers of words -/

/-- A word is a control transfer: a branch, or a jump to a register. -/
def IsTransfer (w : Word) : Prop :=
  (∃ condition d, decode w = some (.branch condition d)) ∨ ∃ rm, decode w = some (.exchange rm)

section
variable {pc : Address} {w : Word} {condition : Condition} {d : Int}

theorem edgeAt_of_branch (h : decode w = some (.branch condition d)) :
    edgeAt pc w = some ⟨pc, Word.ofInt? (Instruction.destination pc d),
      if condition.isConditional then .conditionalBranch else .branch⟩ := by
  rw [edgeAt, h]

theorem exists_edgeAt_iff : (∃ e, edgeAt pc w = some e) ↔ IsTransfer w := by
  constructor
  · rintro ⟨e, he⟩
    unfold edgeAt at he
    split at he
    · next condition d h => exact .inl ⟨condition, d, h⟩
    · next rm h => exact .inr ⟨rm, h⟩
    · cases he
  · rintro (⟨condition, d, h⟩ | ⟨rm, h⟩)
    · exact ⟨_, edgeAt_of_branch h⟩
    · exact ⟨⟨pc, none, .indirect⟩, by rw [edgeAt, h]⟩

/-- A number is an address if it lies in the address space. -/
theorem exists_ofInt?_iff {n : Int} :
    (∃ t, Word.ofInt? n = some t) ↔ 0 ≤ n ∧ n ≤ 2 ^ 32 - 1 := by
  simp only [Word.ofInt?_eq_some_iff]
  constructor
  · rintro ⟨t, rfl⟩
    have hlt : t.toNat < 2 ^ 32 := t.toNat_lt_size
    omega
  · rintro ⟨hlow, hhigh⟩
    have hlt : n.toNat < UInt32.size := by
      change n.toNat < 2 ^ 32
      omega
    exact ⟨UInt32.ofNat n.toNat, by rw [UInt32.toNat_ofNat_of_lt' hlt]; omega⟩

end

/-! ## Texts of branches -/

/-- The text of a branch to an address, which is written in hexadecimal: `b 0x10`, `bz r10, 0x10` or
`bnz r10, 0x10`. -/
def Condition.branchText (t : Address) : Condition → String
  | .always => "b 0x" ++ String.ofList (Nat.toDigits 16 t.toNat)
  | .ifZero r => "bz " ++ r.name ++ ", 0x" ++ String.ofList (Nat.toDigits 16 t.toNat)
  | .ifNonZero r => "bnz " ++ r.name ++ ", 0x" ++ String.ofList (Nat.toDigits 16 t.toNat)

theorem renderBranch_hex (condition : Condition) (t : Address) :
    Instruction.renderBranch condition (hex t.toNat) = condition.branchText t := by
  rw [← String.toList_inj]
  cases condition with
  | always | ifZero | ifNonZero =>
    simp [Instruction.renderBranch, Condition.branchText, toList_hex]

/-- The text of a branch shows its target. -/
theorem disassemble_of_target {pc : Address} {w : Word} {condition : Condition} {d : Int}
    (h : decode w = some (.branch condition d)) {t : Address}
    (ht : Word.ofInt? (Instruction.destination pc d) = some t) :
    disassemble pc w = condition.branchText t := by
  have hlt : (t.toNat : Int) < UInt64.size :=
    Int.ofNat_lt.2 (Nat.lt_trans t.toNat_lt_size (by decide))
  have haddress : Instruction.renderAddress (Instruction.destination pc d) = hex t.toNat := by
    rw [Word.ofInt?_eq_some_iff.1 ht, Instruction.renderAddress,
      Int.emod_eq_of_lt (Int.natCast_nonneg _) hlt, Int.toNat_natCast]
  rw [disassemble, h, ← renderBranch_hex, ← haddress]
  rfl

/-! ## Control transfers and names of an image -/

namespace Image

variable {img : Image}

/-- The lowest address with an instruction word. -/
def IsLowest (img : Image) (a : Address) : Prop :=
  a ∈ img.instructions ∧ ∀ b ∈ img.instructions, a ≤ b

theorem minKey?_eq_some_iff {a : Address} :
    img.instructions.minKey? = some a ↔ img.IsLowest a := by
  rw [TreeMap.minKey?_eq_some_iff_mem_and_forall, IsLowest]
  simp only [isLE_compare]

theorem mem_edges_iff {e : Edge} :
    e ∈ img.edges ↔ ∃ pc w, img.instructions[pc]? = some w ∧ edgeAt pc w = some e := by
  rw [edges, List.mem_filterMap]
  constructor
  · rintro ⟨⟨pc, w⟩, hmem, he⟩
    exact ⟨pc, w, TreeMap.mem_toList_iff_getElem?_eq_some.1 hmem, he⟩
  · rintro ⟨pc, w, hget, he⟩
    exact ⟨(pc, w), TreeMap.mem_toList_iff_getElem?_eq_some.2 hget, he⟩

/-- Control transfers stand exactly where words are control transfers. -/
theorem mem_map_origin_edges_iff {pc : Address} :
    pc ∈ img.edges.map Edge.origin ↔ ∃ w, img.instructions[pc]? = some w ∧ IsTransfer w := by
  rw [List.mem_map]
  constructor
  · rintro ⟨e, he, rfl⟩
    obtain ⟨pc, w, hget, he⟩ := mem_edges_iff.1 he
    rw [origin_of_edgeAt_eq_some he]
    exact ⟨w, hget, exists_edgeAt_iff.1 ⟨e, he⟩⟩
  · rintro ⟨w, hget, hw⟩
    obtain ⟨e, he⟩ := exists_edgeAt_iff.2 hw
    exact ⟨e, mem_edges_iff.2 ⟨pc, w, hget, he⟩, origin_of_edgeAt_eq_some he⟩

/-- A name that is given stays. -/
theorem getElem?_foldl_insertIfNew (names : TreeMap Address String) (targets : List Address)
    (a : Address) :
    (targets.foldl (fun names target => names.insertIfNew target (targetName target)) names)[a]?
      = (names[a]?).or (if a ∈ targets then some (targetName a) else none) := by
  induction targets generalizing names with
  | nil => simp
  | cons target targets ih =>
    rw [List.foldl_cons, ih, TreeMap.getElem?_insertIfNew]
    simp only [LawfulEqCmp.compare_eq_iff_eq]
    by_cases ha : target = a
    · subst ha
      by_cases hmem : target ∈ names <;> simp [hmem]
    · simp [ha, Ne.symm ha]

theorem getElem?_entryLabel (a : Address) :
    img.entryLabel[a]? = if img.instructions.minKey? = some a then some "start" else none := by
  rw [entryLabel]
  cases img.instructions.minKey? with
  | none => simp
  | some entry => simp [TreeMap.getElem?_insert]

/-- The name of an address: `start` for the lowest one, whatever branches go there, and a name made
of the address for the other targets. -/
theorem getElem?_labels (img : Image) (a : Address) :
    img.labels[a]? = if img.instructions.minKey? = some a then some "start"
      else if a ∈ img.edges.filterMap Edge.target then some (targetName a) else none := by
  rw [labels, getElem?_foldl_insertIfNew, getElem?_entryLabel]
  by_cases h : img.instructions.minKey? = some a
  · rw [if_pos h, if_pos h, Option.some_or]
  · rw [if_neg h, if_neg h, Option.none_or]

theorem getElem?_labels_of_isLowest {a : Address} (h : img.IsLowest a) :
    img.labels[a]? = some "start" := by
  rw [getElem?_labels, if_pos (minKey?_eq_some_iff.2 h)]

/-- Every other address is named for itself. -/
theorem getElem?_labels_cases {a : Address} {name : String} (h : img.labels[a]? = some name) :
    img.IsLowest a ∧ name = "start" ∨ name = targetName a := by
  rw [getElem?_labels] at h
  split at h
  · next hentry => exact .inl ⟨minKey?_eq_some_iff.1 hentry, (Option.some.inj h).symm⟩
  · rw [Option.ite_none_right_eq_some] at h
    exact .inr (Option.some.inj h.2).symm

theorem targetName_ne_start (a : Address) : targetName a ≠ "start" := by
  intro h
  have hchars := congrArg String.toList h
  simp [targetName] at hchars

theorem targetName_inj {a b : Address} (h : targetName a = targetName b) : a = b := by
  have hdigits : hexDigits 4 a.toNat = hexDigits 4 b.toNat := by
    simpa [targetName] using h
  exact UInt32.toNat_inj.1 (hexDigits_inj hdigits)

/-- **No two addresses have the same name.** -/
theorem eq_of_getElem?_labels {a b : Address} {name : String} (ha : img.labels[a]? = some name)
    (hb : img.labels[b]? = some name) : a = b := by
  rcases getElem?_labels_cases ha with ⟨halow, rfl⟩ | rfl
  · rcases getElem?_labels_cases hb with ⟨hblow, -⟩ | hname
    · exact Option.some.inj ((minKey?_eq_some_iff.2 halow).symm.trans (minKey?_eq_some_iff.2 hblow))
    · exact absurd hname.symm (targetName_ne_start b)
  · rcases getElem?_labels_cases hb with ⟨-, hname⟩ | hname
    · exact absurd hname (targetName_ne_start a)
    · exact targetName_inj hname

end Image

/-- **What is shown, what is reached and what has a name agree**, for every image.  There is one
control transfer for each word that is a branch or a jump to a register, by increasing address.  A
branch has a target exactly if the address it reaches lies in the address space; its text shows that
target, and the target has a name.  The addresses with names are the lowest one, which is named
`start`, and the targets, and no two of them have the same name. -/
theorem names_match_targets (img : Image) :
    (img.edges.map Edge.origin).Pairwise (· < ·) ∧
    (∀ pc, pc ∈ img.edges.map Edge.origin ↔
      ∃ w, img.instructions[pc]? = some w ∧ IsTransfer w) ∧
    (∀ pc w condition d, img.instructions[pc]? = some w →
      decode w = some (.branch condition d) →
      ∃ e ∈ img.edges, e.origin = pc ∧
        ((∃ t, e.target = some t) ↔
          0 ≤ pc.toNat + d + 2 ∧ pc.toNat + d + 2 ≤ 2 ^ 32 - 1) ∧
        ∀ t, e.target = some t → t.toNat = pc.toNat + d + 2 ∧
          disassemble pc w = condition.branchText t ∧
          ∃ name, img.labels[t]? = some name) ∧
    (∀ a, a ∈ img.labels ↔ img.IsLowest a ∨ ∃ e ∈ img.edges, e.target = some a) ∧
    (∀ a, img.IsLowest a → img.labels[a]? = some "start") ∧
    ∀ (a b : Address) (name : String),
      img.labels[a]? = some name → img.labels[b]? = some name → a = b := by
  have hdomain (a : Address) :
      a ∈ img.labels ↔ img.IsLowest a ∨ ∃ e ∈ img.edges, e.target = some a := by
    rw [Image.mem_labels_iff, Image.minKey?_eq_some_iff]
  refine ⟨img.pairwise_origin_edges, fun pc => Image.mem_map_origin_edges_iff, ?_, hdomain,
    fun a => Image.getElem?_labels_of_isLowest, fun a b name => Image.eq_of_getElem?_labels⟩
  intro pc w condition d hget hdecode
  have hedge := Image.mem_edges_iff.2 ⟨pc, w, hget, edgeAt_of_branch hdecode⟩
  refine ⟨_, hedge, rfl, exists_ofInt?_iff, fun t ht => ⟨?_, disassemble_of_target hdecode ht, ?_⟩⟩
  · exact (Word.ofInt?_eq_some_iff.1 ht).symm
  · have hmem := (hdomain t).2 (.inr ⟨_, hedge, ht⟩)
    exact Option.isSome_iff_exists.1 (TreeMap.isSome_getElem?_iff_mem.2 hmem)

/-- Three branches between their addresses, and one that leaves the address space. -/
def branchImage : Image where
  instructions := .ofList [((0 : Address), (0xeb0a0000 : Word)), (1, 0xeb1b0ffd), (2, 0xea00fffd),
    (3, 0xea00fffa)]

/-- The branches of `branchImage`, with their targets, texts and names. -/
theorem names_match_targets_of_branchImage :
    (∃ e ∈ branchImage.edges, e.origin = 0 ∧ e.target = some 2 ∧
      disassemble 0 0xeb0a0000 = "bz r10, 0x2" ∧ (2 : Address) ∈ branchImage.labels) ∧
    (∃ e ∈ branchImage.edges, e.origin = 1 ∧ e.target = some 0 ∧
      disassemble 1 0xeb1b0ffd = "bnz r11, 0x0" ∧
      branchImage.labels[(0 : Address)]? = some "start") ∧
    (∃ e ∈ branchImage.edges, e.origin = 2 ∧ e.target = some 1 ∧
      disassemble 2 0xea00fffd = "b 0x1" ∧ (1 : Address) ∈ branchImage.labels) ∧
    ∃ e ∈ branchImage.edges, e.origin = 3 ∧ e.target = none := by
  obtain ⟨-, -, hbranches, hlabels, hlowest, -⟩ := names_match_targets branchImage
  have hbranch (pc : Address) (w : Word) (condition : Condition) (d : Int) (t : Address)
      (hget : branchImage.instructions[pc]? = some w)
      (hdecode : decode w = some (.branch condition d)) (ht : (t.toNat : Int) = pc.toNat + d + 2) :
      ∃ e ∈ branchImage.edges, e.origin = pc ∧ e.target = some t ∧
        disassemble pc w = condition.branchText t ∧ t ∈ branchImage.labels := by
    obtain ⟨e, he, horigin, htarget, htext⟩ := hbranches pc w condition d hget hdecode
    have hlt : t.toNat < 2 ^ 32 := t.toNat_lt_size
    obtain ⟨t', ht'⟩ := htarget.2 ⟨by omega, by omega⟩
    obtain ⟨hvalue, hshown, -⟩ := htext t' ht'
    obtain rfl : t' = t := UInt32.toNat_inj.1 (by omega)
    exact ⟨e, he, horigin, ht', hshown, (hlabels t').2 (.inr ⟨e, he, ht'⟩)⟩
  have hstart : branchImage.IsLowest 0 := ⟨by decide +kernel, fun _ _ => UInt32.zero_le⟩
  refine ⟨?_, ?_, ?_, ?_⟩
  · exact hbranch 0 0xeb0a0000 (.ifZero .lessThan) 0 2 (by decide +kernel) (by decide +kernel)
      (by decide)
  · obtain ⟨e, he, horigin, htarget, htext, -⟩ :=
      hbranch 1 0xeb1b0ffd (.ifNonZero .greaterThan) (-3) 0 (by decide +kernel) (by decide +kernel)
        (by decide)
    exact ⟨e, he, horigin, htarget, htext, hlowest 0 hstart⟩
  · exact hbranch 2 0xea00fffd .always (-3) 1 (by decide +kernel) (by decide +kernel) (by decide)
  · obtain ⟨e, he, horigin, htarget, -⟩ :=
      hbranches 3 0xea00fffa .always (-6) (by decide +kernel) (by decide +kernel)
    refine ⟨e, he, horigin, Option.eq_none_iff_forall_ne_some.2 fun t ht => ?_⟩
    exact absurd (htarget.1 ⟨t, ht⟩).1 (by decide)

end FlaglessAsm
