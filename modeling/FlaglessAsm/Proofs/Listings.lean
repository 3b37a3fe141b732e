import FlaglessAsm.Image.Listing
import FlaglessAsm.Program.Listing
import FlaglessAsm.Proofs.DirectiveText
import FlaglessAsm.Proofs.ProgramImage
import FlaglessAsm.Proofs.TargetNames

/-!
# Two listings of a program

A program can be listed in two ways: as it was assembled, with the labels of its source text, or as
an image, read back from its directive text, with names for branch targets.  One walks through the
directives in the order of their emission, the other through memories sorted by address.  Their
formats differ, but both show the same rows in the same order.

## What is here

* `decimalColumn`, `hexColumn`: numbers filled up to the width of a column.
* `Program.dataLine`, `Program.instructionLines`, `Image.instructionLines`, `Image.dataLine`: the
  lines of a row in either format, letter by letter.
* `Program.listing_eq`, `Image.listing_eq`: either listing has the lines of its rows.
* `same_rows_of_assemble`: both listings of an assembled program have the same rows.
-/

set_option autoImplicit false

namespace FlaglessAsm

open Std Text

/-! ## Columns and lines -/

/-- A number in decimal digits, with spaces behind it up to a width. -/
def decimalColumn (width n : Nat) : String :=
  String.ofList ((Nat.toDigits 10 n).rightpad width ' ')

/-- A number in hexadecimal digits, with zeros in front of it up to a width. -/
def hexColumn (width n : Nat) : String :=
  String.ofList ((Nat.toDigits 16 n).leftpad width '0')

theorem padRight_decimal (width n : Nat) : padRight width (decimal n) = decimalColumn width n := by
  rw [padRight, toList_decimal, decimalColumn]

theorem hexPadded_eq (width n : Nat) : hexPadded width n = "0x" ++ hexColumn width n := rfl

theorem hexDigits_eq (width n : Nat) : hexDigits width n = hexColumn width n := rfl

namespace Program

/-- The line of a data word in a listing of a program, such as `  d4     0x00000000 0x00000007`. -/
def dataLine (address : Address) (high low : Word) : String :=
  "  d" ++ decimalColumn 5 address.toNat ++ " 0x" ++ hexColumn 8 high.toNat ++ " 0x"
    ++ hexColumn 8 low.toNat ++ "\n"

/-- The line of an instruction word in a listing of a program, such as
`  16     0xe1a00000  nop`, behind a line for each label of its address. -/
def instructionLines (names : List String) (pc : Address) (word : Word) (text : String) : String :=
  String.join (names.map (· ++ ":\n")) ++ ("  " ++ decimalColumn 6 pc.toNat ++ " 0x"
    ++ hexColumn 8 word.toNat ++ "  " ++ text ++ "\n")

theorem dataRow_eq (address : Address) (high low : Word) :
    dataRow address high low = dataLine address high low := by
  rw [← String.toList_inj]
  simp [dataRow, dataLine, padRight_decimal, hexPadded_eq]

theorem instructionRow_eq (pc : Address) (word : Word) :
    instructionRow pc word = instructionLines [] pc word (disassemble pc word) := by
  rw [← String.toList_inj]
  simp [instructionRow, instructionLines, padRight_decimal, hexPadded_eq]

end Program

namespace Image

/-- The line of an instruction word in a listing of an image, such as `  0x0010: e1a00000  nop`,
behind a line for the name of its address, such as `0x0010 <start>:`. -/
def instructionLines (name : Option String) (pc : Address) (word : Word) (text : String) : String :=
  (match name with
    | some name => "0x" ++ hexColumn 4 pc.toNat ++ " <" ++ name ++ ">:\n"
    | none => "")
  ++ ("  0x" ++ hexColumn 4 pc.toNat ++ ": " ++ hexColumn 8 word.toNat ++ "  " ++ text ++ "\n")

/-- The line of a data word in a listing of an image, such as `  0x0004: 00000000 00000007`. -/
def dataLine (address : Address) (high low : Word) : String :=
  "  0x" ++ hexColumn 4 address.toNat ++ ": " ++ hexColumn 8 high.toNat ++ " "
    ++ hexColumn 8 low.toNat ++ "\n"

theorem renderRow_eq (row : ListedWord) :
    renderRow row = instructionLines row.label row.pc row.word row.text := by
  rw [← String.toList_inj]
  obtain ⟨pc, word, text, label⟩ := row
  cases label with
  | none | some => simp [renderRow, instructionLines, hexPadded_eq, hexDigits_eq]

theorem renderData_eq (address : Address) (high low : Word) :
    renderData address high low = dataLine address high low := by
  rw [← String.toList_inj]
  simp [renderData, dataLine, hexPadded_eq, hexDigits_eq]

end Image

/-! ## Listings as rows -/

/-- Text to which pieces are added one by one. -/
theorem foldl_append_eq_join {α : Type} (piece : α → String) (l : List α) (text : String) :
    l.foldl (fun text a => text ++ piece a) text = text ++ String.join (l.map piece) := by
  induction l generalizing text with
  | nil => simp
  | cons a l ih => rw [List.foldl_cons, ih, List.map_cons, String.join_cons, String.append_assoc]

namespace Program

theorem foldl_names_append_instructionRow (names : List String) (pc : Address) (word : Word)
    (text : String) :
    names.foldl (fun text name => text ++ name ++ ":\n") text ++ instructionRow pc word
      = text ++ instructionLines names pc word (disassemble pc word) := by
  simp only [String.append_assoc]
  rw [foldl_append_eq_join, String.append_assoc, instructionRow_eq]
  simp [instructionLines]

/-- **A listing of a program has the lines of its data words and of its instruction words.** -/
theorem listing_eq (p : Program) :
    p.listing
      = String.join (p.data.toList.map fun (address, high, low) => dataLine address high low)
        ++ String.join (p.instructions.toList.map fun (pc, word) =>
          instructionLines (p.symbols.codeLabels.getD pc []) pc word (disassemble pc word)) := by
  rw [listing, ← Array.foldl_toList, ← Array.foldl_toList]
  simp only [foldl_names_append_instructionRow, dataRow_eq]
  rw [foldl_append_eq_join (fun d : Address × Word × Word => dataLine d.1 d.2.1 d.2.2),
    foldl_append_eq_join (fun i : Address × Word =>
      instructionLines (p.symbols.codeLabels.getD i.1 []) i.1 i.2 (disassemble i.1 i.2)),
    String.empty_append]

end Program

namespace Image

theorem map_listedWords {α : Type} (img : Image) (f : Address → Word → String → Option String → α) :
    img.listedWords.map (fun row => f row.pc row.word row.text row.label)
      = img.instructions.toList.map fun (pc, word) =>
        f pc word (disassemble pc word) img.labels[pc]? := by
  rw [listedWords, List.map_map]
  rfl

/-- **A listing of an image has the lines of its instruction words and of its data words.** -/
theorem listing_eq (img : Image) :
    img.listing true
      = String.join (img.instructions.toList.map fun (pc, word) =>
          instructionLines img.labels[pc]? pc word (disassemble pc word))
        ++ ("\ndata:\n" ++ String.join (img.data.toList.map fun (address, high, low) =>
          dataLine address high low)) := by
  rw [listing, if_pos rfl, foldl_append_eq_join renderRow, String.empty_append,
    funext renderRow_eq]
  simp only [renderData_eq]
  rw [foldl_append_eq_join (fun d : Address × Word × Word => dataLine d.1 d.2.1 d.2.2),
    img.map_listedWords fun pc word text name => instructionLines name pc word text,
    String.append_assoc]

end Image

/-! ## One program, two listings -/

/-- **Both listings of an assembled program show the same rows in the same order**, whatever
directives that write nothing stand behind it.  The directive text of the program reads back as an
image.  There is one list of instruction rows and one list of data rows, those of the image, and
either listing has the lines of all of them, in its own format and with its own labels. -/
theorem same_rows_of_assemble {config : Config} {lines : List SourceLine} {p : Program}
    (h : assemble config lines = .ok p) {ds : List Directive}
    (hds : ∀ d ∈ ds, d.isControl = true) :
    ∃ (img : Image) (rows : List (Address × Word × String)) (cells : List (Address × Word × Word)),
      Image.ofText (p.pushAll ds).render = .ok img ∧
      img.listedWords.map (fun row => (row.pc, row.word, row.text)) = rows ∧
      img.data.toList = cells ∧
      (p.pushAll ds).instructions.toList.map (fun (pc, word) => (pc, word, disassemble pc word))
        = rows ∧
      (p.pushAll ds).data.toList = cells ∧
      (p.pushAll ds).listing
        = String.join (cells.map fun (address, high, low) => Program.dataLine address high low)
          ++ String.join (rows.map fun (pc, word, text) =>
            Program.instructionLines (p.symbols.codeLabels.getD pc []) pc word text) ∧
      img.listing true
        = String.join (rows.map fun (pc, word, text) =>
            Image.instructionLines img.labels[pc]? pc word text)
          ++ ("\ndata:\n" ++ String.join (cells.map fun (address, high, low) =>
            Image.dataLine address high low)) := by
  obtain ⟨ss, -, hp⟩ := assembled_of_assemble_eq_ok h
  obtain ⟨img, hload, -, hinstructions, hdata⟩ := hp.exists_image_pushAll hds false
  obtain ⟨hpush, hpush'⟩ := p.contents_pushAll hds
  have hrows : img.listedWords.map (fun row => (row.pc, row.word, row.text))
      = (p.pushAll ds).instructions.toList.map
        fun (pc, word) => (pc, word, disassemble pc word) := by
    rw [img.map_listedWords fun pc word text _ => (pc, word, text), hinstructions, hpush]
  have hcells : img.data.toList = (p.pushAll ds).data.toList := by
    rw [hdata, hpush']
  refine ⟨img, _, _, Program.ofText_render _ hload, hrows, hcells, rfl, rfl, ?_, ?_⟩
  · rw [Program.listing_eq, p.symbols_pushAll, List.map_map]
    rfl
  · rw [Image.listing_eq, hcells, hinstructions, hpush, List.map_map]
    rfl

/-- A load that is repeated for ever, in front of the data word that is loaded. -/
def pollSource : List SourceLine :=
  [⟨1, "poll:"⟩, ⟨2, "ldr r1, x"⟩, ⟨3, "b poll"⟩, ⟨4, "x:"⟩, ⟨5, ".word -2"⟩]

/-- A configuration without padding and prologue. -/
def pollConfig : Config :=
  { textStart := 16, dataStart := 4, hazardPad := 0, prologue := false }

/-- What is written behind the program of `pollSource`: it is run for one step, and its data word is
read back. -/
def pollDirectives : List Directive :=
  [.run true, .step, .dataRead 4]

theorem exists_assemble_poll : ∃ p, assemble pollConfig pollSource = .ok p ∧
    (p.pushAll pollDirectives).instructions.toList = [(16, 0xe7901004), (17, 0xea00fffd)] ∧
    (p.pushAll pollDirectives).data.toList = [(4, 0xffffffff, 0xfffffffe)] ∧
    p.symbols.codeLabels.getD 16 [] = ["poll"] ∧ p.symbols.codeLabels.getD 17 [] = [] :=
  exists_eq_ok_and_of_any (by decide +kernel)

/-- Only the first of the two instruction words of `pollSource` has a name. -/
theorem getElem?_labels_poll {img : Image}
    (h : img.instructions.toList = [(16, 0xe7901004), (17, 0xea00fffd)]) :
    img.labels[(16 : Address)]? = some "start" ∧ img.labels[(17 : Address)]? = none := by
  rw [Image.getElem?_labels, Image.getElem?_labels, Image.edges, TreeMap.minKey?_eq_head?_keys,
    ← TreeMap.map_fst_toList_eq_keys, h]
  exact ⟨by decide +kernel, by decide +kernel⟩

/-- The two listings of `pollSource`. -/
theorem same_rows_of_poll : ∃ p img, assemble pollConfig pollSource = .ok p ∧
    Image.ofText (p.pushAll pollDirectives).render = .ok img ∧
    (p.pushAll pollDirectives).listing
      = String.join ["  d4     0xffffffff 0xfffffffe\n", "poll:\n",
          "  16     0xe7901004  ldr r1, [r0, #4]\n", "  17     0xea00fffd  b 0x10\n"] ∧
    img.listing true
      = String.join ["0x0010 <start>:\n", "  0x0010: e7901004  ldr r1, [r0, #4]\n",
          "  0x0011: ea00fffd  b 0x10\n", "\ndata:\n", "  0x0004: ffffffff fffffffe\n"] := by
  obtain ⟨p, hp, hinstructions, hdata, hpoll, hnone⟩ := exists_assemble_poll
  have hcontrol : ∀ d ∈ pollDirectives, d.isControl = true := by decide
  obtain ⟨img, _, _, htext, hlisted, -, rfl, rfl, hlisting, hlisting'⟩ :=
    same_rows_of_assemble hp hcontrol
  rw [hinstructions] at hlisted hlisting hlisting'
  rw [hdata] at hlisting hlisting'
  have hwords : img.instructions.toList = [(16, 0xe7901004), (17, 0xea00fffd)] := by
    have hfirst := congrArg (List.map fun row => (row.1, row.2.1)) hlisted
    simpa [Image.listedWords, Function.comp_def] using hfirst
  obtain ⟨hstart, hunnamed⟩ := getElem?_labels_poll hwords
  refine ⟨p, img, hp, htext, hlisting.trans ?_, hlisting'.trans ?_⟩
  · simp only [List.map_cons, List.map_nil, hpoll, hnone]
    decide +kernel
  · simp only [List.map_cons, List.map_nil, hstart, hunnamed]
    decide +kernel

end FlaglessAsm
