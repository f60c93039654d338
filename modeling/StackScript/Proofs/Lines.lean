/-
# StackScript.Proofs.Lines — the lines of a text and of its bytes

Input arrives as bytes and is cut after every byte 10. In the encoding of a text this
byte stands for a line feed and is part of no other character, so that the lines of the
bytes are the encoded lines of the text (`cut_encode`), and all of them can be read
(`ofBytes_text`).
-/
import StackScript.Entry

namespace StackScript.Input

set_option autoImplicit false

/-! ## Cutting -/

section Cut

variable {α β : Type}

/-- The pieces with more in front of the first. -/
def lead (start : List α) : List (List α) → List (List α)
  | [] => [start]
  | piece :: rest => (start ++ piece) :: rest

theorem lead_lead (first second : List α) (pieces : List (List α)) :
    lead first (lead second pieces) = lead (first ++ second) pieces := by
  cases pieces <;> simp [lead]

theorem map_lead (change : α → List β) (start : List α) (pieces : List (List α)) :
    (lead start pieces).map (·.flatMap change) =
      lead (start.flatMap change) (pieces.map (·.flatMap change)) := by
  cases pieces <;> simp [lead]

variable [DecidableEq α] {separator : α}

/-- The pieces of a list, each up to a separator and with it. The last piece may lack the
separator. -/
def cut (separator : α) : List α → List (List α)
  | [] => []
  | a :: rest =>
    if a = separator then [a] :: cut separator rest else lead [a] (cut separator rest)

theorem cut_separator (rest : List α) :
    cut separator (separator :: rest) = [separator] :: cut separator rest := by
  rw [cut, if_pos rfl]

theorem cut_unbroken {start : List α} (unbroken : separator ∉ start) (nonempty : start ≠ [])
    (rest : List α) : cut separator (start ++ rest) = lead start (cut separator rest) := by
  induction start with
  | nil => exact absurd rfl nonempty
  | cons a start ih =>
    obtain ⟨other, unbroken⟩ := not_or.mp (mt List.mem_cons.mpr unbroken)
    rw [List.cons_append, cut, if_neg (Ne.symm other)]
    by_cases last : start = []
    · rw [last, List.nil_append]
    · rw [ih unbroken last, lead_lead, List.singleton_append]

theorem cut_line {line : List α} (unbroken : separator ∉ line) (rest : List α) :
    cut separator (line ++ separator :: rest) = (line ++ [separator]) :: cut separator rest := by
  by_cases empty : line = []
  · rw [empty]
    exact cut_separator rest
  · rw [cut_unbroken unbroken empty, cut_separator, lead]

theorem cut_last {line : List α} (unbroken : separator ∉ line) (nonempty : line ≠ []) :
    cut separator line = [line] := by
  have whole := cut_unbroken unbroken nonempty []
  rwa [List.append_nil] at whole

/-- A cutter in the middle of a piece leaves the pieces it has, and goes on with that one. -/
theorem cutAfter_eq (piece : List α) (pieces : List (List α)) (rest : List α) :
    cutAfter separator piece pieces rest =
      pieces.reverse ++
        if piece.isEmpty then cut separator rest else lead piece.reverse (cut separator rest) := by
  induction rest generalizing piece pieces with
  | nil => cases piece <;> simp [cutAfter, cut, lead]
  | cons a rest ih =>
    simp only [cutAfter, cut]
    split
    · rw [ih]
      cases piece <;> simp [lead]
    · rw [ih]
      cases piece <;> simp [lead_lead]

theorem cutAfter_start (rest : List α) : cutAfter separator [] [] rest = cut separator rest :=
  cutAfter_eq [] [] rest

end Cut

/-! ## Text and bytes -/

/-- The lines of a text, each with its line feed. -/
def lines (text : String) : List String :=
  (cut '\n' text.toList).map String.ofList

/-- The byte of the line feed is in the encoding of no other character. -/
theorem not_mem_utf8EncodeChar {c : Char} (other : c ≠ '\n') : 10 ∉ String.utf8EncodeChar c := by
  have code : c.val.toNat ≠ 10 := by
    intro same
    exact other (Char.ext (UInt32.toNat_inj.mp same))
  have byte (n : Nat) : (10 : UInt8) = UInt8.ofNat n ↔ n % 256 = 10 := by
    rw [← UInt8.toNat_inj, UInt8.toNat_ofNat']
    exact eq_comm
  rw [String.utf8EncodeChar]
  -- a byte of a longer encoding is 128 or more
  split
  · simp only [List.mem_singleton, byte]
    omega
  split
  · simp only [List.mem_cons, List.not_mem_nil, or_false, byte]
    omega
  split
  all_goals
    simp only [List.mem_cons, List.not_mem_nil, or_false, byte]
    omega

/-- **The lines of an encoded text are its encoded lines.** -/
theorem cut_encode (cs : List Char) :
    cut 10 (cs.flatMap String.utf8EncodeChar) =
      (cut '\n' cs).map (·.flatMap String.utf8EncodeChar) := by
  induction cs with
  | nil => rfl
  | cons c cs ih =>
    rw [List.flatMap_cons]
    by_cases ends : c = '\n'
    · rw [ends, cut_separator, List.map_cons, ← ih]
      exact cut_separator _
    · have unbroken := not_mem_utf8EncodeChar ends
      have nonempty : String.utf8EncodeChar c ≠ [] := String.utf8EncodeChar_ne_nil
      rw [cut_unbroken unbroken nonempty, ih, cut, if_neg ends, map_lead, List.flatMap_singleton]

/-- Every line of an encoded text can be read. -/
theorem fromUTF8?_encode (cs : List Char) :
    String.fromUTF8? (ByteArray.mk (cs.flatMap String.utf8EncodeChar).toArray) =
      some (String.ofList cs) := by
  have bytes : ByteArray.mk (cs.flatMap String.utf8EncodeChar).toArray =
      (String.ofList cs).toByteArray := by
    rw [String.toByteArray_ofList, List.utf8Encode]
    apply ByteArray.ext
    simp
  rw [bytes, String.fromUTF8?, dif_pos (String.ofList cs).isValidUTF8]
  rfl

/-- **The bytes of a text are read as its lines.** -/
theorem ofBytes_text (text : String) :
    ofBytes text.toUTF8.data.toList = (lines text).map .text := by
  have bytes : text.toUTF8.data.toList = text.toList.flatMap String.utf8EncodeChar := by
    have encoded : text.toByteArray = text.toList.utf8Encode := by
      rw [← String.toByteArray_ofList, String.ofList_toList]
    rw [String.toUTF8_eq_toByteArray, encoded, List.utf8Encode]
    simp
  rw [bytes, ofBytes, cutAfter_start, cut_encode, lines, List.map_map, List.map_map]
  apply List.map_congr_left
  intro line _
  simp only [Function.comp_apply, fromUTF8?_encode]

end StackScript.Input
