/-
The paths of `/proc/self/mountinfo`. The kernel writes space, tab, newline and backslash as `\ooo`; the file
system lookup (`src/fsinfo.rs`) and the event mapping (`src/synotify.rs`) have a loop each that takes the
escapes back.
-/
import StorageHarvester.Lib.LittleEndian
import StorageHarvester.Lib.UnixPath
import StorageHarvester.Lib.Utf8

namespace StorageHarvester.Mountinfo

open LittleEndian (window)

def backslash : UInt8 := 92

/-! ## Octal digits -/

/-- The digits of a number so far, and one more, as long as it fits eight bits. -/
def pushOctal (value : Nat) (digit : UInt8) : Option Nat :=
  if 48 ≤ digit && digit ≤ 55 then
    let value := value * 8 + (digit.toNat - 48)
    if value ≤ 255 then some value else none
  else none

/-- `u8::from_str_radix(digits, 8)`, which takes a leading `+`. -/
def fromOctal (digits : Bytes) : Option UInt8 :=
  let digits := match digits with
    | 43 :: digit :: rest => digit :: rest
    | _ => digits
  if digits = [] then none else (digits.foldlM pushOctal 0).map UInt8.ofNat

/-! ## The two loops -/

/-- The loop of `unescape` in `src/fsinfo.rs`, for at most `fuel` rounds; `none` if it panics or goes on. -/
def Fsinfo.unescapeLoop (bytes : Bytes) : Nat → Nat → Bytes → Option Bytes
  | 0, _, _ => none
  | fuel + 1, index, out =>
    if index < bytes.length then
      bytes[index]?.bind fun byte =>
        if byte = backslash ∧ index + 4 ≤ bytes.length then
          (window bytes (index + 1) 3).bind fun cut =>
            let digits := if Utf8.valid cut then cut else []
            match fromOctal digits with
            | some value => Fsinfo.unescapeLoop bytes fuel (index + 4) (out ++ [value])
            | none => Fsinfo.unescapeLoop bytes fuel (index + 1) (out ++ [byte])
        else Fsinfo.unescapeLoop bytes fuel (index + 1) (out ++ [byte])
    else some out

/-- `unescape` in `src/fsinfo.rs`. -/
def Fsinfo.unescape (field : Bytes) : Option Bytes := (Fsinfo.unescapeLoop field (field.length + 1) 0 []).map Utf8.lossy

/-- The loop of `unescape` in `src/synotify.rs`. -/
def Synotify.unescapeLoop (bytes : Bytes) : Nat → Nat → Bytes → Option Bytes
  | 0, _, _ => none
  | fuel + 1, index, out =>
    if index < bytes.length then
      bytes[index]?.bind fun byte =>
        if byte = backslash ∧ index + 4 ≤ bytes.length then
          (window bytes (index + 1) 3).bind fun cut =>
            match (if Utf8.valid cut then some cut else none).bind fromOctal with
            | some value => Synotify.unescapeLoop bytes fuel (index + 4) (out ++ [value])
            | none => Synotify.unescapeLoop bytes fuel (index + 1) (out ++ [byte])
        else Synotify.unescapeLoop bytes fuel (index + 1) (out ++ [byte])
    else some out

/-- `unescape` in `src/synotify.rs`. -/
def Synotify.unescape (field : Bytes) : Option Bytes := Synotify.unescapeLoop field (field.length + 1) 0 []

/-! ## What they decode -/

/-- The byte an escape's three digits stand for. -/
def escaped (cut : Bytes) : Option UInt8 := if Utf8.valid cut then fromOctal cut else none

/-- A field with its escapes taken back, from left to right; what is none is left as it is. -/
def decode : Bytes → Bytes
  | [] => []
  | byte :: a :: b :: c :: rest =>
    if byte = backslash then
      match escaped [a, b, c] with
      | some value => value :: decode rest
      | none => byte :: decode (a :: b :: c :: rest)
    else byte :: decode (a :: b :: c :: rest)
  | byte :: rest => byte :: decode rest

theorem decode_cons {byte : UInt8} (h : byte ≠ backslash) (rest : Bytes) : decode (byte :: rest) = byte :: decode rest := by
  rcases rest with _ | ⟨a, _ | ⟨b, _ | ⟨c, rest⟩⟩⟩
  · rfl
  · rfl
  · rfl
  · rw [decode, if_neg h]

theorem decode_short {byte : UInt8} {rest : Bytes} (h : rest.length < 3) : decode (byte :: rest) = byte :: decode rest := by
  rcases rest with _ | ⟨a, _ | ⟨b, _ | ⟨c, rest⟩⟩⟩
  · rfl
  · rfl
  · rfl
  · simp only [List.length_cons] at h
    omega

theorem escaped_of_digits (cut : Bytes) : fromOctal (if Utf8.valid cut then cut else []) = escaped cut := by
  unfold escaped
  split <;> rfl

theorem escaped_of_option (cut : Bytes) : (if Utf8.valid cut then some cut else none).bind fromOctal = escaped cut := by
  unfold escaped
  split <;> rfl

/-- The two loops go the same way. -/
theorem unescapeLoop_agree (bytes : Bytes) : ∀ (fuel index : Nat) (out : Bytes),
    Synotify.unescapeLoop bytes fuel index out = Fsinfo.unescapeLoop bytes fuel index out
  | 0, _, _ => rfl
  | fuel + 1, index, out => by
    rw [Synotify.unescapeLoop, Fsinfo.unescapeLoop]
    simp only [escaped_of_digits, escaped_of_option, unescapeLoop_agree bytes fuel]

/-- The cut after a backslash, and what is left behind it. -/
theorem window_drop {bytes rest : Bytes} {index : Nat} {byte a b c : UInt8} (h : bytes.drop index = byte :: a :: b :: c :: rest) :
    window bytes (index + 1) 3 = some [a, b, c] := by
  have hlen : index + 4 ≤ bytes.length := by
    have := congrArg List.length h
    simp only [List.length_drop, List.length_cons] at this
    omega
  rw [LittleEndian.window_eq_some (by omega), ← List.drop_drop, h]
  rfl

/-- With rounds enough the loop puts out the rest decoded. -/
theorem unescapeLoop_eq (bytes : Bytes) : ∀ (fuel index : Nat) (out : Bytes), bytes.length - index < fuel →
    Fsinfo.unescapeLoop bytes fuel index out = some (out ++ decode (bytes.drop index))
  | 0, index, out, hf => absurd hf (Nat.not_lt_zero _)
  | fuel + 1, index, out, hf => by
    rw [Fsinfo.unescapeLoop]
    by_cases hi : index < bytes.length
    · have hdrop : bytes.drop index = bytes[index] :: bytes.drop (index + 1) := List.drop_eq_getElem_cons hi
      have hone := unescapeLoop_eq bytes fuel (index + 1) (out ++ [bytes[index]]) (by omega)
      rw [List.append_assoc, List.singleton_append] at hone
      rw [if_pos hi, List.getElem?_eq_getElem hi, Option.bind_some]
      by_cases hesc : bytes[index] = backslash ∧ index + 4 ≤ bytes.length
      · obtain ⟨a, b, c, rest, hcut⟩ : ∃ a b c rest, bytes.drop (index + 1) = a :: b :: c :: rest := by
          have hlen : 3 ≤ (bytes.drop (index + 1)).length := by
            rw [List.length_drop]
            omega
          rcases hd : bytes.drop (index + 1) with _ | ⟨a, _ | ⟨b, _ | ⟨c, rest⟩⟩⟩ <;> rw [hd] at hlen
          case cons.cons.cons => exact ⟨a, b, c, rest, rfl⟩
          all_goals simp at hlen
        have hall : bytes.drop index = bytes[index] :: a :: b :: c :: rest := by rw [hdrop, hcut]
        have hrest : bytes.drop (index + 4) = rest := by
          rw [show index + 4 = index + 1 + 3 from rfl, ← List.drop_drop, hcut]
          rfl
        rw [if_pos hesc, window_drop hall, Option.bind_some]
        dsimp only
        rw [escaped_of_digits, hall, decode, if_pos hesc.1]
        cases escaped [a, b, c] with
        | some value =>
          show Fsinfo.unescapeLoop bytes fuel (index + 4) (out ++ [value]) = some (out ++ value :: decode rest)
          rw [unescapeLoop_eq bytes fuel (index + 4) (out ++ [value]) (by omega), hrest, List.append_assoc]
          rfl
        | none =>
          show Fsinfo.unescapeLoop bytes fuel (index + 1) (out ++ [bytes[index]]) = some (out ++ bytes[index] :: decode (a :: b :: c :: rest))
          rw [hone, hcut]
      · rw [if_neg hesc, hone, hdrop]
        by_cases hbyte : bytes[index] = backslash
        · rw [decode_short]
          rw [List.length_drop]
          have : ¬index + 4 ≤ bytes.length := fun h => hesc ⟨hbyte, h⟩
          omega
        · rw [decode_cons hbyte]
    · rw [if_neg hi, List.drop_eq_nil_of_le (Nat.le_of_not_lt hi), decode, List.append_nil]

theorem mapping_unescape (field : Bytes) : Synotify.unescape field = some (decode field) := by
  unfold Synotify.unescape
  rw [unescapeLoop_agree, unescapeLoop_eq field _ 0 [] (by omega)]
  rfl

theorem lookup_unescape (field : Bytes) : Fsinfo.unescape field = some (Utf8.lossy (decode field)) := by
  unfold Fsinfo.unescape
  rw [unescapeLoop_eq field _ 0 [] (by omega)]
  rfl

/-! ## What the kernel writes -/

/-- A byte of a path, as the kernel writes it. -/
def escapeByte (byte : UInt8) : Bytes :=
  if byte = 32 then [backslash, 48, 52, 48]
  else if byte = 9 then [backslash, 48, 49, 49]
  else if byte = 10 then [backslash, 48, 49, 50]
  else if byte = backslash then [backslash, 49, 51, 52]
  else [byte]

/-- A path, with space, tab, newline and backslash escaped. -/
def escape (path : Bytes) : Bytes := path.flatMap escapeByte

theorem decode_escapeByte (byte : UInt8) (rest : Bytes) : decode (escapeByte byte ++ rest) = byte :: decode rest := by
  unfold escapeByte
  split
  · rename_i h
    subst h
    rfl
  · split
    · rename_i h
      subst h
      rfl
    · split
      · rename_i h
        subst h
        rfl
      · split
        · rename_i h
          subst h
          rfl
        · rename_i h
          exact decode_cons h rest

theorem decode_escape (path : Bytes) : decode (escape path) = path := by
  induction path with
  | nil => rfl
  | cons byte path ih =>
    unfold escape at ih ⊢
    rw [List.flatMap_cons, decode_escapeByte, ih]

/-- Either side reads back a path that is UTF-8 and written escaped; and of any field whatever the file
system lookup has the lossy reading of the bytes that the event mapping has. -/
theorem unescape_inverts : (∀ path, Utf8.valid path = true →
      Fsinfo.unescape (escape path) = some path ∧ Synotify.unescape (escape path) = some path) ∧
    ∀ field, ∃ bytes, Synotify.unescape field = some bytes ∧ Fsinfo.unescape field = some (Utf8.lossy bytes) := by
  refine ⟨fun path hp => ⟨?_, ?_⟩, fun field => ⟨_, mapping_unescape field, lookup_unescape field⟩⟩
  · rw [lookup_unescape, decode_escape, Utf8.lossy_of_valid hp]
  · rw [mapping_unescape, decode_escape]

/-- Escapes cut short, out of range or of other digits are left as they are; a sign is taken as the
standard library takes it. -/
example : [[92, 48, 52], [92, 55, 55, 55], [92, 48, 56, 48], [92, 195, 169, 48], [92, 43, 52, 49]].map Synotify.unescape =
    [some [92, 48, 52], some [92, 55, 55, 55], some [92, 48, 56, 48], some [92, 195, 169, 48], some [33]] := by decide

end StorageHarvester.Mountinfo
