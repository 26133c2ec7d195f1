/-
The status of the device-mapper devices (`src/lvm.rs`), asked of device-mapper itself or read of what
`dmsetup status` prints. Asked itself, it lists the devices in records that each say how far off the next
is, and says for each one the segments it is made of, in a buffer that grows until the answer fits. Of a
device with one segment both ways come to the same line; of one with more, device-mapper is asked for the first,
and of what is printed the last stays.
-/
import StorageHarvester.Lib.LittleEndian
import StorageHarvester.Lib.Text
import StorageHarvester.Lvm.Pool

namespace StorageHarvester.Lvm

open LittleEndian (length_write read read_write window window_head window_skip write)
open Text (Ascii splitOnce trim)

/-! ## Asking device-mapper -/

inductive Command where
  | listDevices | tableStatus

inductive MapperError where
  | invalidInput
  | system (errno : Nat)

/-- What device-mapper leaves in a buffer of a size, for a command and a device's name. -/
abbrev Control := Command → Bytes → Nat → Except MapperError Bytes

def nameLen : Nat := 128
def bufferFull : Nat := 1 <<< 8
def firstSize : Nat := 16 * 1024
def largestSize : Nat := 1 <<< 24

def u32At (bytes : Bytes) (at_ : Nat) : Option Nat := (window bytes at_ 4).map read

def u64At (bytes : Bytes) (at_ : Nat) : Option Nat := (window bytes at_ 8).map read

def cStr (bytes : Bytes) : Bytes := bytes.takeWhile (· ≠ 0)

/-- The loop of `call`, for at most `fuel` rounds; `none` if it panics or goes on. -/
def callLoop (control : Control) (cmd : Command) (name : Bytes) : Nat → Nat → Option (Except MapperError (Bytes × Nat))
  | 0, _ => none
  | fuel + 1, size =>
    match control cmd name size with
    | .error error => some (.error error)
    | .ok buf => do
      let flags ← u32At buf 28
      if flags &&& bufferFull ≠ 0 ∧ size < largestSize then callLoop control cmd name fuel (size * 4)
      else
        let start := min (← u32At buf 16) size
        return .ok (buf.drop start, ← u32At buf 20)

/-- One ioctl, in a buffer that grows until the answer fits. -/
def call (control : Control) (cmd : Command) (name : Bytes) : Option (Except MapperError (Bytes × Nat)) :=
  if nameLen ≤ name.length then some (.error .invalidInput) else callLoop control cmd name 6 firstSize

/-- The loop over the list of names, for at most `fuel` rounds; `none` if it panics or goes on. -/
def namesLoop (list : Bytes) : Nat → Nat → List Bytes → Option (List Bytes)
  | 0, _, _ => none
  | fuel + 1, at_, names =>
    if at_ + 12 ≤ list.length then do
      if (← u64At list at_) ≠ 0 then
        let names := names ++ [cStr (list.drop (at_ + 12))]
        let next ← u32At list (at_ + 8)
        if next = 0 then some names else namesLoop list fuel (at_ + next) names
      else some names
    else some names

/-- The line of a device's first segment. -/
def statusLine (data : Bytes) (targets : Nat) : Option Bytes :=
  if targets = 0 ∨ data.length < 40 then some []
  else do
    let kind := Utf8.lossy (cStr ((data.take 40).drop 24))
    let params := Utf8.lossy (cStr (data.drop 40))
    return trim (decimal (← u64At data 0) ++ 32 :: (decimal (← u64At data 8) ++ 32 :: (kind ++ 32 :: params)))

def statusAll (control : Control) : List Bytes → Table Bytes Bytes → Option (Except MapperError (Table Bytes Bytes))
  | [], status => some (.ok status)
  | name :: names, status => do
    match ← call control .tableStatus name with
    | .error error => return .error error
    | .ok (data, targets) => statusAll control names (status.put (Utf8.lossy name) (← statusLine data targets))

def dmStatus (control : Control) : Option (Except MapperError (Table Bytes Bytes)) := do
  match ← call control .listDevices [] with
  | .error error => return .error error
  | .ok (list, _) => statusAll control (← namesLoop list (list.length + 1) 0 []) .empty

/-! ## Reading what is printed -/

/-- `dmsetup table` or `dmsetup status`, by device. -/
def parseDmsetup (text : Bytes) : Table Bytes Bytes :=
  Table.ofList ((Text.lines text).filterMap fun line =>
    (splitOnce (ascii ": ") line).bind fun e => if 32 ∈ e.1 then none else some (e.1, trim e.2))

/-! ## The devices -/

/-- A segment of a device: where it is, what maps it, and that mapping's status. -/
structure Segment where
  start : Nat
  len : Nat
  kind : Bytes
  params : Bytes
  /-- Its own status and the offset of the next one. -/
  spec : Bytes

structure Mapped where
  dev : Nat
  name : Bytes
  /-- What is left of the record it is listed in. -/
  pad : Bytes
  segments : List Segment

def Printable (text : Bytes) : Prop := ∀ b ∈ text, 32 ≤ b ∧ b < 127

instance (text : Bytes) : Decidable (Printable text) :=
  decidable_of_iff (text.all (fun b => decide (32 ≤ b) && decide (b < 127)) = true) (by simp [Printable])

structure Segment.WellFormed (s : Segment) : Prop where
  start : s.start < 2 ^ 64
  len : s.len < 2 ^ 64
  kind : Printable s.kind
  short : s.kind.length < 16
  params : Printable s.params
  spec : s.spec.length = 8

structure Mapped.WellFormed (d : Mapped) : Prop where
  dev : 0 < d.dev ∧ d.dev < 2 ^ 64
  name : Printable d.name
  short : d.name.length < nameLen
  record : 13 + d.name.length + d.pad.length < 2 ^ 32
  segments : ∀ s ∈ d.segments, s.WellFormed

namespace Segment

def encode (s : Segment) : Bytes :=
  write 8 s.start ++ (write 8 s.len ++ (s.spec ++ ((s.kind ++ List.replicate (16 - s.kind.length) 0) ++ (s.params ++ [0]))))

/-- Its line, without its parameters. -/
def head (s : Segment) : Bytes := decimal s.start ++ 32 :: (decimal s.len ++ 32 :: s.kind)

/-- Its line, as `dmsetup` prints it. -/
def printed (s : Segment) : Bytes := s.head ++ (if s.params = [] then [] else 32 :: s.params)

end Segment

namespace Mapped

/-- The record a device is listed in, with how far off the next one is. -/
def record (d : Mapped) (next : Nat) : Bytes := write 8 d.dev ++ (write 4 next ++ (d.name ++ 0 :: d.pad))

/-- What `dmsetup` prints of a device behind its name: a line for each segment, or one with nothing. -/
def lines (d : Mapped) : List Bytes := if d.segments = [] then [[]] else d.segments.map Segment.printed

def firstLine (d : Mapped) : Bytes := (d.segments.head?.map fun s => trim s.printed).getD []

def lastLine (d : Mapped) : Bytes := (d.segments.getLast?.map fun s => trim s.printed).getD []

end Mapped

/-- The records of all devices, or one of none. -/
def records : List Mapped → Bytes
  | [] => List.replicate 12 0
  | [d] => d.record 0
  | d :: ds => d.record (13 + d.name.length + d.pad.length) ++ records ds

/-- The lines `dmsetup status` prints. -/
def printedLines (devices : List Mapped) : List Bytes :=
  if devices = [] then [ascii "No devices found"]
  else devices.flatMap fun d => d.lines.map fun line => d.name ++ 58 :: 32 :: line

def printed (devices : List Mapped) : Bytes := (printedLines devices).flatMap fun line => line ++ [10]

/-- An answer that fits its buffer: `count` targets, and a payload. -/
structure Answered (buf : Bytes) (size count : Nat) (payload : Bytes) : Prop where
  flags : ∃ flags, u32At buf 28 = some flags ∧ flags &&& bufferFull = 0
  payload : ∃ start rest, u32At buf 16 = some start ∧ start ≤ size ∧ buf.drop start = payload ++ rest
  count : u32At buf 20 = some count

/-- A buffer that an answer does not fit. -/
def Full (buf : Bytes) : Prop := ∃ flags, u32At buf 28 = some flags ∧ flags &&& bufferFull ≠ 0

/-- A command on a device is answered with a payload, in each buffer that is large enough; the largest one is. -/
def Answers (control : Control) (cmd : Command) (name payload : Bytes) (count : Nat) : Prop :=
  ∀ size, firstSize ≤ size → ∃ buf, control cmd name size = .ok buf ∧
    (Answered buf size count payload ∨ Full buf ∧ size < largestSize)

/-- Device-mapper has these devices. -/
structure Shows (control : Control) (devices : List Mapped) : Prop where
  list : ∃ count, Answers control .listDevices [] (records devices) count
  status : ∀ d ∈ devices, Answers control .tableStatus d.name (d.segments.flatMap Segment.encode) d.segments.length

/-! ## What is answered -/

/-- An answer that fits ends the loop. -/
theorem callLoop_answered {control : Control} {cmd : Command} {name buf payload : Bytes} {size count : Nat}
    (hbuf : control cmd name size = .ok buf) (h : Answered buf size count payload) (fuel : Nat) :
    ∃ rest, callLoop control cmd name (fuel + 1) size = some (.ok (payload ++ rest, count)) := by
  obtain ⟨flags, hflags, hfits⟩ := h.flags
  obtain ⟨start, rest, hstart, hle, hdrop⟩ := h.payload
  refine ⟨rest, ?_⟩
  rw [callLoop, hbuf]
  simp only [hflags, hstart, h.count, Option.bind_eq_bind, Option.bind_some]
  rw [if_neg fun hc => hc.1 hfits, Nat.min_eq_left hle, hdrop]
  rfl

/-- The buffer grows until the answer fits, which it does at the largest size. -/
theorem callLoop_answers {control : Control} {cmd : Command} {name payload : Bytes} {count : Nat}
    (h : Answers control cmd name payload count) : ∀ (fuel : Nat) {size : Nat}, firstSize ≤ size → largestSize ≤ size * 4 ^ fuel →
      ∃ rest, callLoop control cmd name (fuel + 1) size = some (.ok (payload ++ rest, count)) := by
  -- on the rounds left: each one makes the buffer four times as large
  intro fuel
  induction fuel with
  | zero =>
    intro size hfirst hlarge
    obtain ⟨buf, hbuf, hanswer | ⟨-, hsmall⟩⟩ := h size hfirst
    · exact callLoop_answered hbuf hanswer 0
    · -- the largest buffer is not full
      omega
  | succ fuel ih =>
    intro size hfirst hlarge
    obtain ⟨buf, hbuf, hanswer | ⟨⟨flags, hflags, hfull⟩, hsmall⟩⟩ := h size hfirst
    · exact callLoop_answered hbuf hanswer (fuel + 1)
    · have hgrown : largestSize ≤ size * 4 * 4 ^ fuel := by
        rw [Nat.mul_assoc, ← Nat.pow_succ']
        exact hlarge
      obtain ⟨rest, hloop⟩ := ih (Nat.le_trans hfirst (Nat.le_mul_of_pos_right _ (by decide))) hgrown
      refine ⟨rest, ?_⟩
      rw [callLoop, hbuf]
      simp only [hflags, Option.bind_eq_bind, Option.bind_some]
      rw [if_pos ⟨hfull, hsmall⟩]
      exact hloop

theorem call_answers {control : Control} {cmd : Command} {name payload : Bytes} {count : Nat}
    (h : Answers control cmd name payload count) (hname : name.length < nameLen) :
    ∃ rest, call control cmd name = some (.ok (payload ++ rest, count)) := by
  unfold call
  rw [if_neg (Nat.not_le_of_lt hname)]
  exact callLoop_answers h 5 (Nat.le_refl _) (by decide)

theorem printable_decimal (n : Nat) : Printable (decimal n) := fun b hb => by
  have hrange := decimal_range n hb
  rw [UInt8.le_iff_toNat_le, UInt8.lt_iff_toNat_lt]
  exact ⟨Nat.le_trans (by decide) hrange.1, Nat.lt_of_le_of_lt hrange.2 (by decide)⟩

theorem Printable.append {s t : Bytes} (hs : Printable s) (ht : Printable t) : Printable (s ++ t) :=
  fun b hb => (List.mem_append.1 hb).elim (hs b) (ht b)

theorem Printable.cons {b : UInt8} {s : Bytes} (hb : 32 ≤ b ∧ b < 127) (hs : Printable s) : Printable (b :: s) := by
  rintro c hc
  rcases List.mem_cons.1 hc with rfl | hc
  · exact hb
  · exact hs c hc

theorem Printable.not_mem {s : Bytes} (hs : Printable s) {b : UInt8} (hb : b < 32) : b ∉ s :=
  fun hm => absurd (hs b hm).1 (UInt8.not_le.2 hb)

theorem Printable.ascii {text : Bytes} (h : Printable text) : Ascii text :=
  fun b hb => UInt8.lt_trans (h b hb).2 (by decide)

theorem Printable.lossy {text : Bytes} (h : Printable text) : Utf8.lossy text = text := Text.lossy_ascii h.ascii

/-- A text without a zero ends at the first one behind it. -/
theorem cStr_printable : ∀ {text : Bytes} (rest : Bytes), Printable text → cStr (text ++ 0 :: rest) = text
  | [], _, _ => rfl
  | b :: text, rest, h => by
    have hb : b ≠ 0 := by
      rintro rfl
      exact absurd (h 0 (List.mem_cons_self ..)).1 (by decide)
    have ih : cStr (text ++ 0 :: rest) = text := cStr_printable rest fun c hc => h c (List.mem_cons_of_mem _ hc)
    unfold cStr at ih ⊢
    rw [List.cons_append, List.takeWhile_cons_of_pos (by simpa using hb), ih]

theorem Mapped.length_record (d : Mapped) (next : Nat) : (d.record next).length = 13 + d.name.length + d.pad.length := by
  unfold record
  rw [List.length_append, List.length_append, List.length_append, List.length_cons, length_write, length_write]
  omega

/-- A record is read where the one before it says it is. -/
theorem namesLoop_record {d : Mapped} (hd : d.WellFormed) {next : Nat} (hnext : next < 2 ^ 32) (before more : Bytes) (fuel : Nat)
    (names : List Bytes) :
    namesLoop (before ++ (d.record next ++ more)) (fuel + 1) before.length names =
      if next = 0 then some (names ++ [d.name])
      else namesLoop (before ++ (d.record next ++ more)) fuel (before.length + next) (names ++ [d.name]) := by
  have hlist : d.record next ++ more = write 8 d.dev ++ (write 4 next ++ (d.name ++ 0 :: (d.pad ++ more))) := by
    unfold Mapped.record
    simp
  have hdev : u64At (before ++ (d.record next ++ more)) before.length = some d.dev := by
    unfold u64At
    rw [window_skip (Nat.add_zero _).symm, hlist, window_head (length_write ..).symm, Option.map_some, read_write hd.dev.2]
  have hnxt : u32At (before ++ (d.record next ++ more)) (before.length + 8) = some next := by
    have hskip : 8 = (write 8 d.dev).length + 0 := (length_write 8 d.dev).symm
    unfold u32At
    rw [window_skip rfl, hlist, window_skip hskip, window_head (length_write ..).symm, Option.map_some,
      read_write hnext]
  have hname : cStr ((before ++ (d.record next ++ more)).drop (before.length + 12)) = d.name := by
    have hdrop : (d.record next ++ more).drop 12 = d.name ++ 0 :: (d.pad ++ more) := by
      rw [hlist, ← List.append_assoc]
      exact List.drop_left' (by rw [List.length_append, length_write, length_write])
    rw [List.drop_append, List.drop_eq_nil_of_le (Nat.le_add_right ..), Nat.add_sub_cancel_left, List.nil_append, hdrop,
      cStr_printable _ hd.name]
  have hlen : before.length + 12 ≤ (before ++ (d.record next ++ more)).length := by
    rw [List.length_append, List.length_append, Mapped.length_record]
    omega
  have hpos : d.dev ≠ 0 := Nat.pos_iff_ne_zero.1 hd.dev.1
  rw [namesLoop, if_pos hlen, hdev, Option.bind_eq_bind, Option.bind_some, if_pos hpos, hnxt, Option.bind_some, hname]

/-- All names are read. -/
theorem namesLoop_records (rest : Bytes) : ∀ {devices : List Mapped} {fuel : Nat} (before : Bytes) (names : List Bytes),
    (∀ d ∈ devices, d.WellFormed) → devices.length < fuel →
    namesLoop (before ++ (records devices ++ rest)) fuel before.length names = some (names ++ devices.map Mapped.name)
  | [], fuel + 1, before, names, _, _ => by
    have hzero : u64At (before ++ (List.replicate 12 0 ++ rest)) before.length = some 0 := by
      have hrest : List.replicate 12 0 ++ rest = List.replicate 8 (0 : UInt8) ++ (List.replicate 4 0 ++ rest) := rfl
      unfold u64At
      rw [window_skip (Nat.add_zero _).symm, hrest, window_head (List.length_replicate ..).symm]
      rfl
    rw [namesLoop, if_pos (by simp [records]), records, hzero, Option.bind_eq_bind, Option.bind_some, List.map_nil, List.append_nil]
    exact if_neg (not_not.2 rfl)
  | [d], fuel + 1, before, names, hw, _ => by
    exact namesLoop_record (hw d (List.mem_cons_self ..)) (by decide) before rest fuel names
  | d :: e :: devices, fuel + 1, before, names, hw, hf => by
    -- the next record begins where this one ends, so the rest is read behind both
    have hd := hw d (List.mem_cons_self ..)
    have hlen := Mapped.length_record d (13 + d.name.length + d.pad.length)
    have ih := namesLoop_records rest (before ++ d.record (13 + d.name.length + d.pad.length)) (names ++ [d.name])
      (fun e he => hw e (List.mem_cons_of_mem _ he)) (Nat.lt_of_succ_lt_succ hf)
    rw [List.length_append, hlen, List.append_assoc] at ih
    have hrecords : records (d :: e :: devices) = d.record (13 + d.name.length + d.pad.length) ++ records (e :: devices) := rfl
    rw [hrecords, List.append_assoc, namesLoop_record hd hd.record, if_neg (by omega), ih, List.append_assoc]
    rfl

namespace Segment

/-- A digit is no white space. -/
theorem digit_visible {b : UInt8} (h : 48 ≤ b.toNat ∧ b.toNat ≤ 57) : Text.isWhitespace [b] = false := by
  have hne : b ≠ 32 := by
    rintro rfl
    exact absurd h.1 (by decide)
  have hgt : ¬b ≤ 13 := fun hle => by
    have hlt : b.toNat ≤ 13 := UInt8.le_iff_toNat_le.1 hle
    omega
  simp [Text.isWhitespace, hne, hgt]

variable {s : Segment}

theorem head_printable (hs : s.WellFormed) : Printable s.head :=
  (printable_decimal s.start).append (((printable_decimal s.len).append (hs.kind.cons (by decide))).cons (by decide))

/-- A line begins with a digit. -/
theorem head_cons (s : Segment) : ∃ b rest, s.head = b :: rest ∧ Text.isWhitespace [b] = false := by
  obtain ⟨b, rest, hdecimal⟩ := List.exists_cons_of_ne_nil (show decimal s.start ≠ [] by
    unfold decimal
    rw [ne_eq, List.map_eq_nil_iff]
    exact Nat.toDigits_ne_nil)
  refine ⟨b, rest ++ 32 :: (decimal s.len ++ 32 :: s.kind), ?_, digit_visible (decimal_range s.start ?_)⟩
  · unfold head
    rw [hdecimal, List.cons_append]
  · rw [hdecimal]
    exact List.mem_cons_self ..

/-- Where the parameters are empty, only a blank is trimmed. -/
theorem trim_printed (hs : s.WellFormed) : trim (s.head ++ 32 :: s.params) = trim s.printed := by
  unfold printed
  split
  case isTrue hparams =>
    obtain ⟨b, rest, hhead, hb⟩ := s.head_cons
    have hascii := (head_printable hs).ascii
    rw [hhead] at hascii
    rw [hparams, List.append_nil, hhead, Text.trim_blank hb hascii]
  case isFalse => rfl

/-- The line made of what device-mapper says of a segment is the printed one. -/
theorem statusLine_encode (hs : s.WellFormed) (more : Bytes) {targets : Nat} (ht : targets ≠ 0) :
    statusLine (s.encode ++ more) targets = some (trim s.printed) := by
  have hkindLength : (s.kind ++ List.replicate (16 - s.kind.length) 0).length = 16 := by
    rw [List.length_append, List.length_replicate]
    have := hs.short
    omega
  have hdata : s.encode ++ more = (write 8 s.start ++ (write 8 s.len ++ s.spec)) ++
      ((s.kind ++ List.replicate (16 - s.kind.length) 0) ++ (s.params ++ 0 :: more)) := by
    unfold encode
    simp
  have hfront : (write 8 s.start ++ (write 8 s.len ++ s.spec)).length = 24 := by
    rw [List.length_append, List.length_append, length_write, length_write, hs.spec]
  have hlong : ¬(s.encode ++ more).length < 40 := by
    rw [hdata, List.length_append, hfront, List.length_append, hkindLength]
    omega
  have hkind : ((s.encode ++ more).take 40).drop 24 = s.kind ++ List.replicate (16 - s.kind.length) 0 := by
    rw [List.drop_take, hdata, List.drop_left' hfront]
    exact List.take_left' hkindLength
  have hparams : (s.encode ++ more).drop 40 = s.params ++ 0 :: more := by
    rw [hdata, ← List.append_assoc]
    exact List.drop_left' (by rw [List.length_append, hfront, hkindLength])
  -- the kind is shorter than its field, so a zero ends it
  have hzero : List.replicate (16 - s.kind.length) (0 : UInt8) = 0 :: List.replicate (15 - s.kind.length) 0 := by
    rw [← List.replicate_succ]
    congr 1
    have := hs.short
    omega
  have hstart : u64At (s.encode ++ more) 0 = some s.start := by
    unfold u64At
    rw [hdata, List.append_assoc, window_head (length_write ..).symm, Option.map_some, read_write hs.start]
  have hlen : u64At (s.encode ++ more) 8 = some s.len := by
    have hskip : 8 = (write 8 s.start).length + 0 := (length_write 8 s.start).symm
    unfold u64At
    rw [hdata, List.append_assoc, window_skip hskip, List.append_assoc, window_head (length_write ..).symm, Option.map_some,
      read_write hs.len]
  have hline : decimal s.start ++ 32 :: (decimal s.len ++ 32 :: (s.kind ++ 32 :: s.params)) = s.head ++ 32 :: s.params := by
    unfold head
    simp
  unfold statusLine
  rw [if_neg fun h => h.elim ht hlong, hkind, hparams, hzero, cStr_printable _ hs.kind, cStr_printable _ hs.params, hs.kind.lossy,
    hs.params.lossy, hstart, hlen]
  simp only [Option.bind_eq_bind, Option.bind_some]
  rw [hline, trim_printed hs]
  rfl

end Segment

theorem Mapped.statusLine_segments {d : Mapped} (hd : d.WellFormed) (rest : Bytes) :
    statusLine (d.segments.flatMap Segment.encode ++ rest) d.segments.length = some d.firstLine := by
  unfold firstLine
  cases hs : d.segments with
  | nil => exact if_pos (.inl rfl)
  | cons s more =>
    rw [List.flatMap_cons, List.append_assoc]
    exact Segment.statusLine_encode (hd.segments s (by rw [hs]; exact List.mem_cons_self ..)) _ (Nat.succ_ne_zero _)

/-- Each device's first line is put under its name. -/
theorem statusAll_names {control : Control} : ∀ {devices : List Mapped} (status : Table Bytes Bytes),
    (∀ d ∈ devices, d.WellFormed ∧ Answers control .tableStatus d.name (d.segments.flatMap Segment.encode) d.segments.length) →
    statusAll control (devices.map Mapped.name) status =
      some (.ok ((devices.map fun d => (d.name, d.firstLine)).foldl (fun t e => t.put e.1 e.2) status))
  | [], _, _ => rfl
  | d :: devices, status, h => by
    obtain ⟨hd, hanswers⟩ := h d (List.mem_cons_self ..)
    obtain ⟨rest, hcall⟩ := call_answers hanswers hd.short
    have ih := statusAll_names (status.put d.name d.firstLine) fun e he => h e (List.mem_cons_of_mem _ he)
    rw [List.map_cons, statusAll, hcall]
    simp only [Option.bind_eq_bind, Option.bind_some]
    rw [Mapped.statusLine_segments hd rest, hd.name.lossy]
    exact ih

/-- Asked itself, device-mapper tells each device's first line. -/
theorem dmStatus_shows {control : Control} {devices : List Mapped} (h : Shows control devices) (hw : ∀ d ∈ devices, d.WellFormed) :
    dmStatus control = some (.ok (Table.ofList (devices.map fun d => (d.name, d.firstLine)))) := by
  obtain ⟨count, hlist⟩ := h.list
  obtain ⟨rest, hcall⟩ := call_answers hlist (by decide)
  have hlength : ∀ {devices : List Mapped}, devices.length ≤ (records devices).length := by
    intro devices
    fun_induction records devices with
    | case1 => exact Nat.zero_le _
    | case2 d =>
      rw [Mapped.length_record, List.length_singleton]
      omega
    | case3 d ds hne ih =>
      rw [List.length_append, Mapped.length_record, List.length_cons]
      omega
  have hnames := namesLoop_records rest [] [] hw (show devices.length < (records devices ++ rest).length + 1 by
    rw [List.length_append]
    exact Nat.lt_succ_of_le (Nat.le_trans hlength (Nat.le_add_right ..)))
  unfold dmStatus
  rw [hcall]
  simp only [Option.bind_eq_bind, Option.bind_some]
  rw [List.nil_append] at hnames
  rw [List.length_nil] at hnames
  rw [hnames, Option.bind_some, List.nil_append, statusAll_names .empty fun d hd => ⟨hw d hd, h.status d hd⟩]
  rfl

/-! ## What is printed -/

theorem Segment.printed_printable {s : Segment} (hs : s.WellFormed) : Printable s.printed := by
  refine (head_printable hs).append ?_
  split
  · rintro b hb
    cases hb
  · exact hs.params.cons (by decide)

theorem Mapped.lines_printable {d : Mapped} (hd : d.WellFormed) : ∀ line ∈ d.lines, Printable line := by
  intro line hline
  unfold lines at hline
  split at hline
  · rw [List.mem_singleton.1 hline]
    rintro b hb
    cases hb
  · obtain ⟨s, hs, rfl⟩ := List.mem_map.1 hline
    exact Segment.printed_printable (hd.segments s hs)

/-- What is read of a device's lines. -/
def Mapped.shown (d : Mapped) : List (Bytes × Bytes) :=
  d.lines.filterMap fun line => if 32 ∈ d.name then none else some (d.name, trim line)

theorem parseDmsetup_printed {devices : List Mapped} (hw : ∀ d ∈ devices, d.WellFormed)
    (hplain : ∀ d ∈ devices, 58 ∉ d.name ∨ 32 ∉ d.name) :
    parseDmsetup (printed devices) = Table.ofList (devices.flatMap Mapped.shown) := by
  have hlines : ∀ line ∈ printedLines devices, Printable line := by
    intro line hline
    unfold printedLines at hline
    split at hline
    · rw [List.mem_singleton.1 hline]
      decide
    · obtain ⟨d, hd, hline⟩ := List.mem_flatMap.1 hline
      obtain ⟨part, hpart, rfl⟩ := List.mem_map.1 hline
      exact (hw d hd).name.append (((Mapped.lines_printable (hw d hd) part hpart).cons (by decide)).cons (by decide))
  unfold parseDmsetup printed
  rw [Text.lines_flatMap fun line hline => ⟨(hlines line hline).not_mem (by decide),
    fun hlast => (hlines line hline).not_mem (by decide : (13 : UInt8) < 32) (List.mem_of_getLast? hlast)⟩]
  congr 1
  unfold printedLines
  split
  case isTrue hnone =>
    rw [hnone]
    decide
  case isFalse =>
    rw [List.filterMap_flatMap]
    refine List.flatMap_congr fun d hd => ?_
    unfold Mapped.shown
    rw [List.filterMap_map]
    refine List.filterMap_congr fun line _ => ?_
    show (splitOnce [58, 32] (d.name ++ 58 :: 32 :: line)).bind _ = _
    rw [Text.splitOnce_pair (by decide) line (hplain d hd)]
    rfl

/-! ## Both -/

theorem Mapped.get_shown (d : Mapped) : (Table.ofList d.shown).get d.name = if 32 ∈ d.name then none else some d.lastLine := by
  unfold shown
  split
  case isTrue =>
    rw [List.filterMap_none]
    rfl
  case isFalse =>
    have hmap : (d.lines.map fun line => (d.name, trim line)) = (d.lines.map trim).map fun line => (d.name, line) := by
      rw [List.map_map]
      rfl
    rw [List.filterMap_eq_map', hmap, Table.get_ofList_const, List.getLast?_map]
    unfold lines lastLine
    split
    case isTrue hnone =>
      rw [hnone]
      rfl
    case isFalse hsome =>
      rw [List.getLast?_map, List.getLast?_eq_some_getLast hsome]
      rfl

/-- With one segment at most, the first line is the last. -/
theorem Mapped.lastLine_of_one {d : Mapped} (h : d.segments.length ≤ 1) : d.lastLine = d.firstLine := by
  unfold lastLine firstLine
  match hs : d.segments with
  | [] => rfl
  | [s] => rfl
  | s :: t :: more =>
    rw [hs] at h
    simp at h

/-- What device-mapper leaves in a buffer that is large enough: its header and a payload behind it. -/
def reply (payload : Bytes) (count size : Nat) : Bytes :=
  (List.replicate 16 0 ++ (write 4 312 ++ (write 4 count ++ (List.replicate 4 0 ++ (write 4 0 ++ List.replicate 280 0))))) ++
    (payload ++ List.replicate (size - 312 - payload.length) 0)

theorem answered_reply (payload : Bytes) {count size : Nat} (hcount : count < 2 ^ 32) (hsize : 312 ≤ size) :
    Answered (reply payload count size) size count payload := by
  have hzeros : ∀ n, (List.replicate n (0 : UInt8)).length = n := fun n => List.length_replicate
  constructor
  · refine ⟨0, ?_, rfl⟩
    unfold u32At reply
    rw [List.append_assoc, window_skip (i := 12) (by rw [hzeros]), List.append_assoc, window_skip (i := 8) (by rw [length_write]),
      List.append_assoc, window_skip (i := 4) (by rw [length_write]), List.append_assoc, window_skip (i := 0) (by rw [hzeros]),
      List.append_assoc, window_head (length_write ..).symm]
    rfl
  · refine ⟨312, List.replicate (size - 312 - payload.length) 0, ?_, hsize, ?_⟩
    · unfold u32At reply
      rw [List.append_assoc, window_skip (i := 0) (by rw [hzeros]), List.append_assoc, window_head (length_write ..).symm]
      rfl
    · exact List.drop_left' (by simp only [List.length_append, List.length_replicate, length_write])
  · unfold u32At reply
    rw [List.append_assoc, window_skip (i := 4) (by rw [hzeros]), List.append_assoc, window_skip (i := 0) (by rw [length_write]),
      List.append_assoc, window_head (length_write ..).symm, Option.map_some, read_write hcount]

/-- A volume of one segment and one of two. -/
def rootAndData : List Mapped :=
  [{ dev := 253, name := ascii "pve-root", pad := [0, 0],
     segments := [⟨0, 100, ascii "linear", [], List.replicate 8 0⟩] },
   { dev := 254, name := ascii "pve-data", pad := [],
     segments := [⟨0, 64, ascii "thin-pool", ascii "1 2/3", List.replicate 8 0⟩, ⟨64, 36, ascii "linear", [], List.replicate 8 0⟩] }]

def rootAndDataControl : Control
  | .listDevices, _, size => .ok (reply (records rootAndData) 0 size)
  | .tableStatus, name, size => match rootAndData.find? fun d => d.name = name with
    | some d => .ok (reply (d.segments.flatMap Segment.encode) d.segments.length size)
    | none => .error (.system 6)

theorem rootAndData_shows : Shows rootAndDataControl rootAndData where
  list := ⟨0, fun size hsize => ⟨_, rfl, .inl (answered_reply _ (by decide) (Nat.le_trans (by decide) hsize))⟩⟩
  status := by
    have hfind : ∀ d ∈ rootAndData, (rootAndData.find? fun e => e.name = d.name) = some d ∧ d.segments.length < 2 ^ 32 := by
      simp only [rootAndData, List.forall_mem_cons, List.not_mem_nil, false_imp_iff, implies_true, and_true]
      exact ⟨⟨rfl, by decide⟩, rfl, by decide⟩
    intro d hd size hsize
    refine ⟨reply (d.segments.flatMap Segment.encode) d.segments.length size, ?_,
      .inl (answered_reply _ (hfind d hd).2 (Nat.le_trans (by decide) hsize))⟩
    show (match rootAndData.find? fun e => e.name = d.name with | some d => _ | none => _) = _
    rw [(hfind d hd).1]

theorem rootAndData_wellFormed : ∀ d ∈ rootAndData, d.WellFormed := by
  have hsegment : ∀ s ∈ rootAndData.flatMap Mapped.segments, s.WellFormed := by
    intro s hs
    simp only [rootAndData, List.flatMap_cons, List.flatMap_nil, List.append_nil, List.cons_append, List.nil_append,
      List.mem_cons, List.not_mem_nil, or_false] at hs
    rcases hs with rfl | rfl | rfl
    all_goals exact ⟨by decide, by decide, by decide, by decide, by decide, by decide⟩
  intro d hd
  have hsegments : ∀ s ∈ d.segments, s.WellFormed := fun s hs => hsegment s (List.mem_flatMap.2 ⟨d, hd, hs⟩)
  simp only [rootAndData, List.mem_cons, List.not_mem_nil, or_false] at hd
  rcases hd with rfl | rfl
  all_goals exact ⟨by decide, by decide, by decide, by decide, hsegments⟩

end StorageHarvester.Lvm
