/-
Text as its UTF-8 bytes: characters, white space, and cutting at a pattern. Of ASCII text each byte is a
character.
-/
import StorageHarvester.Lib.Utf8

namespace StorageHarvester.Text

/-- The characters of a string. -/
def charsLoop : Nat → List UInt8 → List (List UInt8)
  | 0, _ => []
  | _, [] => []
  | fuel + 1, a :: rest =>
    let n := match Utf8.chunk a rest with
      | .char n => n
      | .broken n => n
    (a :: rest).take n :: charsLoop fuel ((a :: rest).drop n)

def chars (text : List UInt8) : List (List UInt8) := charsLoop text.length text

/-- `char::is_whitespace`. -/
def isWhitespace (c : List UInt8) : Bool := match c with
  | [a] => a = 32 || (9 ≤ a && a ≤ 13)
  | [0xC2, a] => a = 0x85 || a = 0xA0
  | [0xE1, a, b] => a = 0x9A && b = 0x80
  | [0xE2, a, b] => a = 0x80 && ((0x80 ≤ b && b ≤ 0x8A) || b = 0xA8 || b = 0xA9 || b = 0xAF) || a = 0x81 && b = 0x9F
  | [0xE3, a, b] => a = 0x80 && b = 0x80
  | _ => false

/-- `str::trim_matches`. -/
def trimMatches (p : List UInt8 → Bool) (text : List UInt8) : List UInt8 :=
  (((chars text).dropWhile p).reverse.dropWhile p).reverse.flatten

def trim (text : List UInt8) : List UInt8 := trimMatches isWhitespace text

/-- `str::split_once`. -/
def splitOnce (pattern : List UInt8) : List UInt8 → Option (List UInt8 × List UInt8)
  | [] => if pattern = [] then some ([], []) else none
  | b :: rest =>
    if (b :: rest).take pattern.length = pattern then some ([], (b :: rest).drop pattern.length)
    else (splitOnce pattern rest).map fun e => (b :: e.1, e.2)

/-- `str::lines`: without their ends. What follows the last end is a line unless it is empty, and no carriage
return is taken off it. -/
def lines (text : List UInt8) : List (List UInt8) :=
  let parts := text.splitOn 10
  (parts.dropLast.map fun line => if line.getLast? = some 13 then line.dropLast else line) ++ (parts.getLast?.filter (· ≠ [])).toList

/-! ## Lines -/

/-- Lines written each with an end are read again. -/
theorem lines_flatMap {texts : List (List UInt8)} (h : ∀ line ∈ texts, 10 ∉ line ∧ line.getLast? ≠ some 13) :
    lines (texts.flatMap fun line => line ++ [10]) = texts := by
  have hsplit : ∀ {texts : List (List UInt8)}, (∀ line ∈ texts, 10 ∉ line) →
      (texts.flatMap fun line => line ++ [10]).splitOn 10 = texts ++ [[]] := by
    intro texts
    induction texts with
    | nil => exact fun _ => rfl
    | cons line texts ih =>
      intro h
      rw [List.flatMap_cons, List.append_assoc, List.singleton_append,
        List.splitOn_append_cons_self_of_not_mem (h line (List.mem_cons_self ..)),
        ih fun line hline => h line (List.mem_cons_of_mem _ hline)]
      rfl
  have hends : (texts.map fun line => if line.getLast? = some 13 then line.dropLast else line) = texts := by
    conv_rhs => rw [← List.map_id texts]
    exact List.map_congr_left fun line hline => if_neg (h line hline).2
  unfold lines
  dsimp only
  rw [hsplit fun line hline => (h line hline).1, List.dropLast_concat, List.getLast?_concat, hends]
  exact List.append_nil _

example : lines [97, 13, 10, 10, 98, 13] = [[97], [], [98, 13]] := by decide

/-! ## ASCII -/

def Ascii (text : List UInt8) : Prop := ∀ b ∈ text, b < 0x80

theorem Ascii.append {s t : List UInt8} (hs : Ascii s) (ht : Ascii t) : Ascii (s ++ t) :=
  fun b hb => (List.mem_append.1 hb).elim (hs b) (ht b)

theorem Ascii.cons {b : UInt8} {s : List UInt8} (hb : b < 0x80) (hs : Ascii s) : Ascii (b :: s) := by
  rintro c hc
  rcases List.mem_cons.1 hc with rfl | hc
  · exact hb
  · exact hs c hc

theorem chunk_ascii {a : UInt8} (ha : a < 0x80) (rest : List UInt8) : Utf8.chunk a rest = .char 1 := by
  unfold Utf8.chunk
  rw [if_pos ha]

theorem charsLoop_ascii : ∀ {fuel : Nat} {text : List UInt8}, text.length ≤ fuel → Ascii text → charsLoop fuel text = text.map fun b => [b]
  | 0, text, hf, _ => by
    rw [List.length_eq_zero_iff.1 (Nat.le_zero.1 hf)]
    rfl
  | fuel + 1, [], _, _ => rfl
  | fuel + 1, a :: rest, hf, h => by
    rw [charsLoop, chunk_ascii (h a (List.mem_cons_self ..))]
    show [a] :: charsLoop fuel rest = _
    rw [charsLoop_ascii (Nat.le_of_succ_le_succ hf) fun b hb => h b (List.mem_cons_of_mem _ hb)]
    rfl

theorem chars_ascii {text : List UInt8} (h : Ascii text) : chars text = text.map fun b => [b] := charsLoop_ascii (Nat.le_refl _) h

theorem validLoop_ascii : ∀ {fuel : Nat} {text : List UInt8}, text.length ≤ fuel → Ascii text → Utf8.validLoop fuel text = true
  | 0, text, hf, _ => by
    rw [List.length_eq_zero_iff.1 (Nat.le_zero.1 hf)]
    rfl
  | fuel + 1, [], _, _ => rfl
  | fuel + 1, a :: rest, hf, h => by
    rw [Utf8.validLoop, chunk_ascii (h a (List.mem_cons_self ..))]
    exact validLoop_ascii (Nat.le_of_succ_le_succ hf) fun b hb => h b (List.mem_cons_of_mem _ hb)

theorem lossy_ascii {text : List UInt8} (h : Ascii text) : Utf8.lossy text = text :=
  Utf8.lossy_of_valid (validLoop_ascii (Nat.le_refl _) h)

/-- A blank at the end of a text that begins with something else is trimmed. -/
theorem trim_blank {a : UInt8} {text : List UInt8} (ha : isWhitespace [a] = false) (h : Ascii (a :: text)) :
    trim (a :: text ++ [32]) = trim (a :: text) := by
  have hblank : Ascii (a :: text ++ [32]) := h.append fun b hb => by
    rw [List.mem_singleton.1 hb]
    decide
  unfold trim trimMatches
  rw [chars_ascii h, chars_ascii hblank, List.map_append, List.map_cons, List.cons_append, List.dropWhile_cons_of_neg (by simp [ha]),
    List.dropWhile_cons_of_neg (by simp [ha]), ← List.cons_append, List.reverse_append]
  rfl

/-- A front without the first byte of what it is cut at. -/
theorem splitOnce_skip {a : UInt8} {pattern : List UInt8} (rest : List UInt8) : ∀ {front : List UInt8}, a ∉ front →
    splitOnce (a :: pattern) (front ++ rest) = (splitOnce (a :: pattern) rest).map fun e => (front ++ e.1, e.2)
  | [], _ => by simp
  | c :: front, h => by
    obtain ⟨hc, hfront⟩ := List.ne_and_not_mem_of_not_mem_cons h
    have hne : ¬(c :: (front ++ rest)).take (a :: pattern).length = a :: pattern := by
      rintro he
      exact hc (List.cons.inj he).1.symm
    rw [List.cons_append, splitOnce, if_neg hne, splitOnce_skip rest hfront, Option.map_map]
    rfl

/-- A text is cut at the first place where two bytes are, if one of them is nowhere before. -/
theorem splitOnce_pair {a b : UInt8} (hab : a ≠ b) (rest : List UInt8) : ∀ {front : List UInt8}, a ∉ front ∨ b ∉ front →
    splitOnce [a, b] (front ++ a :: b :: rest) = some (front, rest)
  | [], _ => by
    rw [List.nil_append, splitOnce]
    exact if_pos rfl
  | c :: front, h => by
    have hfront : a ∉ front ∨ b ∉ front :=
      h.imp (fun ha hm => ha (List.mem_cons_of_mem _ hm)) fun hb hm => hb (List.mem_cons_of_mem _ hm)
    have hne : (c :: (front ++ a :: b :: rest)).take [a, b].length ≠ [a, b] := by
      cases front with
      | nil =>
        rintro he
        cases he
        exact hab rfl
      | cons d front =>
        rintro he
        cases he
        rcases h with ha | hb
        · exact ha (List.mem_cons_self ..)
        · exact hb (List.mem_cons_of_mem _ (List.mem_cons_self ..))
    rw [List.cons_append, splitOnce, if_neg hne, splitOnce_pair hab rest hfront]
    rfl

end StorageHarvester.Text
