/-
The events fanotify delivers (`parse` in `src/live.rs`): a buffer of events, each with information
records, of which those that identify a directory signal it by file system and handle. Reading stops
where a length makes no sense and never leaves the buffer, and a directory is signalled by the key the
walk got for it (`handle_at` in `src/scanner/native.rs`).
-/
import StorageHarvester.Lib.LittleEndian
import StorageHarvester.Live.State

namespace StorageHarvester.Fanotify

open LittleEndian

/-! ## Reading a buffer -/

/-- `i32::from_ne_bytes`, of the number the bytes are. -/
def toI32 (n : Nat) : Int := if n < 2 ^ 31 then n else n - 2 ^ 32

/-- `FAN_Q_OVERFLOW`. -/
def overflowBit : Nat := 16384
def infoDfidName : UInt8 := 2
def infoDfid : UInt8 := 3

/-- What reading an event does. -/
inductive Effect where
  /-- A descriptor that came with the event is closed. -/
  | close (fd : Int)
  | overflow
  /-- A directory of the file system `fsid` changed, by the process `pid`. -/
  | signal (fsid : Int × Int) (key : Bytes) (pid : Int)
  deriving DecidableEq, Repr

/-- The directory a record identifies. `none` is an index out of bounds. -/
def readRecord (pid : Int) (kind : UInt8) (record : Bytes) : Option (List Effect) :=
  if (kind = infoDfidName ∨ kind = infoDfid) ∧ 20 ≤ record.length then do
    let major ← window record 4 4
    let minor ← window record 8 4
    let bytes ← window record 12 4
    if 20 + read bytes ≤ record.length then do
      -- the handle's type, then the handle
      let key ← window record 16 (4 + read bytes)
      return [.signal (toI32 (read major), toI32 (read minor)) key pid]
    else return []
  else some []

/-- At most `fuel` information records. -/
def parseInfo (pid : Int) : Nat → Bytes → Option (List Effect)
  | 0, _ => none
  | fuel + 1, info =>
    if info.length < 4 then some []
    else do
      let kind ← info[0]?
      let len ← window info 2 2
      if read len < 4 ∨ info.length < read len then return []
      else do
        let record ← window info 0 (read len)
        let found ← readRecord pid kind record
        let later ← rest info (read len)
        return found ++ (← parseInfo pid fuel later)

def parseEvent (event : Bytes) : Option (List Effect) := do
  let metadataLen ← window event 6 2
  let mask ← window event 8 8
  let fd ← window event 16 4
  let pid ← window event 20 4
  let info ← rest event (min (read metadataLen) event.length)
  let signals ← parseInfo (toI32 (read pid)) (info.length + 1) info
  return (if 0 ≤ toI32 (read fd) then [.close (toI32 (read fd))] else []) ++
    (if read mask &&& overflowBit ≠ 0 then [.overflow] else []) ++ signals

/-- At most `fuel` events. -/
def parse : Nat → Bytes → Option (List Effect)
  | 0, _ => none
  | fuel + 1, events =>
    if events.length < 24 then some []
    else do
      let eventLen ← window events 0 4
      if read eventLen < 24 ∨ events.length < read eventLen then return []
      else do
        let event ← window events 0 (read eventLen)
        let effects ← parseEvent event
        let later ← rest events (read eventLen)
        return effects ++ (← parse fuel later)

/-! ## Every buffer is read -/

theorem window_isSome (data : Bytes) (start len : Nat) (h : start + len ≤ data.length) : ∃ part, window data start len = some part :=
  ⟨_, window_eq_some h⟩

theorem readRecord_isSome (pid : Int) (kind : UInt8) (record : Bytes) : ∃ effects, readRecord pid kind record = some effects := by
  unfold readRecord
  split
  · rename_i h
    obtain ⟨major, hmajor⟩ := window_isSome record 4 4 (by omega)
    obtain ⟨minor, hminor⟩ := window_isSome record 8 4 (by omega)
    obtain ⟨bytes, hbytes⟩ := window_isSome record 12 4 (by omega)
    rw [hmajor, hminor, hbytes]
    dsimp only [Option.bind_eq_bind, Option.bind_some]
    split
    · obtain ⟨key, hkey⟩ := window_isSome record 16 (4 + read bytes) (by omega)
      rw [hkey]
      exact ⟨_, rfl⟩
    · exact ⟨_, rfl⟩
  · exact ⟨_, rfl⟩

/-- More fuel than there are bytes makes no difference. -/
theorem parseInfo_isSome (pid : Int) : ∀ (n : Nat) (info : Bytes), info.length < n →
    ∃ effects, ∀ fuel > info.length, parseInfo pid fuel info = some effects
  | 0, _, h => absurd h (Nat.not_lt_zero _)
  | n + 1, info, h => by
    by_cases h4 : info.length < 4
    · refine ⟨[], fun fuel hf => ?_⟩
      obtain ⟨fuel, rfl⟩ := Nat.exists_eq_succ_of_ne_zero (Nat.ne_of_gt (Nat.zero_lt_of_lt hf))
      rw [parseInfo, if_pos h4]
    · have hkind : info[0]? = some info[0] := List.getElem?_eq_getElem (by omega)
      obtain ⟨len, hlen⟩ := window_isSome info 2 2 (by omega)
      by_cases hl : read len < 4 ∨ info.length < read len
      · refine ⟨[], fun fuel hf => ?_⟩
        obtain ⟨fuel, rfl⟩ := Nat.exists_eq_succ_of_ne_zero (Nat.ne_of_gt (Nat.zero_lt_of_lt hf))
        rw [parseInfo, if_neg h4, hkind, hlen]
        dsimp only [Option.bind_eq_bind, Option.bind_some]
        rw [if_pos hl]
        rfl
      · obtain ⟨record, hrecord⟩ := window_isSome info 0 (read len) (by omega)
        obtain ⟨found, hfound⟩ := readRecord_isSome pid info[0] record
        have hrest := rest_eq_some (show read len ≤ info.length by omega)
        -- a record takes four bytes at least
        have hshorter : (info.drop (read len)).length + 4 ≤ info.length := by
          rw [List.length_drop]
          omega
        obtain ⟨effects, he⟩ := parseInfo_isSome pid n (info.drop (read len)) (by omega)
        refine ⟨found ++ effects, fun fuel hf => ?_⟩
        obtain ⟨fuel, rfl⟩ := Nat.exists_eq_succ_of_ne_zero (Nat.ne_of_gt (Nat.zero_lt_of_lt hf))
        rw [parseInfo, if_neg h4, hkind, hlen]
        dsimp only [Option.bind_eq_bind, Option.bind_some]
        rw [if_neg hl, hrecord, Option.bind_some, hfound, Option.bind_some, hrest, Option.bind_some, he fuel (by omega)]
        rfl

theorem parseEvent_isSome (event : Bytes) (h : 24 ≤ event.length) : ∃ effects, parseEvent event = some effects := by
  unfold parseEvent
  obtain ⟨metadataLen, hmetadata⟩ := window_isSome event 6 2 (by omega)
  obtain ⟨mask, hmask⟩ := window_isSome event 8 8 (by omega)
  obtain ⟨fd, hfd⟩ := window_isSome event 16 4 (by omega)
  obtain ⟨pid, hpid⟩ := window_isSome event 20 4 (by omega)
  have hrest := rest_eq_some (Nat.min_le_right (read metadataLen) event.length)
  obtain ⟨signals, hsignals⟩ := parseInfo_isSome (toI32 (read pid)) _ (event.drop (min (read metadataLen) event.length)) (Nat.lt_succ_self _)
  rw [hmetadata, hmask, hfd, hpid]
  dsimp only [Option.bind_eq_bind, Option.bind_some]
  rw [hrest, Option.bind_some, hsignals _ (Nat.lt_succ_self _)]
  exact ⟨_, rfl⟩

/-- Every buffer is read to an end, within it. -/
theorem parse_isSome : ∀ (n : Nat) (events : Bytes), events.length < n →
    ∃ effects, ∀ fuel > events.length, parse fuel events = some effects
  | 0, _, h => absurd h (Nat.not_lt_zero _)
  | n + 1, events, h => by
    by_cases h24 : events.length < 24
    · refine ⟨[], fun fuel hf => ?_⟩
      obtain ⟨fuel, rfl⟩ := Nat.exists_eq_succ_of_ne_zero (Nat.ne_of_gt (Nat.zero_lt_of_lt hf))
      rw [parse, if_pos h24]
    · obtain ⟨eventLen, hlen⟩ := window_isSome events 0 4 (by omega)
      by_cases hl : read eventLen < 24 ∨ events.length < read eventLen
      · refine ⟨[], fun fuel hf => ?_⟩
        obtain ⟨fuel, rfl⟩ := Nat.exists_eq_succ_of_ne_zero (Nat.ne_of_gt (Nat.zero_lt_of_lt hf))
        rw [parse, if_neg h24, hlen]
        dsimp only [Option.bind_eq_bind, Option.bind_some]
        rw [if_pos hl]
        rfl
      · obtain ⟨event, hevent⟩ := window_isSome events 0 (read eventLen) (by omega)
        obtain ⟨found, hfound⟩ := parseEvent_isSome event (by rw [length_of_window hevent]; omega)
        have hrest := rest_eq_some (show read eventLen ≤ events.length by omega)
        have hshorter : (events.drop (read eventLen)).length + 24 ≤ events.length := by
          rw [List.length_drop]
          omega
        obtain ⟨effects, he⟩ := parse_isSome n (events.drop (read eventLen)) (by omega)
        refine ⟨found ++ effects, fun fuel hf => ?_⟩
        obtain ⟨fuel, rfl⟩ := Nat.exists_eq_succ_of_ne_zero (Nat.ne_of_gt (Nat.zero_lt_of_lt hf))
        rw [parse, if_neg h24, hlen]
        dsimp only [Option.bind_eq_bind, Option.bind_some]
        rw [if_neg hl, hevent, Option.bind_some, hfound, Option.bind_some, hrest, Option.bind_some, he fuel (by omega)]
        rfl

/-! ## What the kernel writes -/

/-- `MAX_HANDLE_SZ`. -/
def maxHandle : Nat := 128

/-- A file handle of the kernel. -/
structure KernelHandle where
  handleType : Nat
  bytes : Bytes
  type_lt : handleType < 2 ^ 32
  length_le : bytes.length ≤ maxHandle

/-- What `name_to_handle_at` fills (`struct file_handle`). -/
structure FileHandle where
  handleBytes : Nat
  handleType : Nat
  fHandle : Bytes

/-- The key the walk gets for a directory: the handle's type, then the handle. -/
def handleAt (answer : Option FileHandle) : Option Bytes :=
  answer.map fun h => write 4 h.handleType ++ h.fHandle.take (min h.handleBytes maxHandle)

/-- The kernel's answer for a handle, whatever is left in the rest of its room. -/
def KernelHandle.answer (h : KernelHandle) (leftover : Bytes) : FileHandle := ⟨h.bytes.length, h.handleType, h.bytes ++ leftover⟩

def KernelHandle.key (h : KernelHandle) : Bytes := write 4 h.handleType ++ h.bytes

theorem handleAt_answer (h : KernelHandle) (leftover : Bytes) : handleAt (some (h.answer leftover)) = some h.key := by
  unfold handleAt KernelHandle.answer KernelHandle.key
  rw [Option.map_some, Nat.min_eq_left h.length_le, List.take_left]

/-- An information record. -/
inductive Info where
  /-- One that identifies a directory, with or without an entry's name `after` the handle. -/
  | directory (named : Bool) (pad : UInt8) (fsid : Nat × Nat) (handle : KernelHandle) (after : Bytes)
  | other (kind pad : UInt8) (body : Bytes)

namespace Info

def kind : Info → UInt8
  | directory named .. => if named then infoDfidName else infoDfid
  | other kind .. => kind

def pad : Info → UInt8
  | directory _ pad .. => pad
  | other _ pad _ => pad

def body : Info → Bytes
  | directory _ _ fsid handle after =>
    write 4 fsid.1 ++ (write 4 fsid.2 ++ (write 4 handle.bytes.length ++ (handle.key ++ after)))
  | other _ _ body => body

def encode (i : Info) : Bytes := i.kind :: i.pad :: (write 2 (4 + i.body.length) ++ i.body)

/-- The file system and the key of the directory it identifies. -/
def identified : Info → Option ((Int × Int) × Bytes)
  | directory _ _ fsid handle _ => some ((toI32 fsid.1, toI32 fsid.2), handle.key)
  | other .. => none

/-- The lengths fit their fields, and only records of a directory are of its kinds. -/
def WellFormed (i : Info) : Prop := 4 + i.body.length < 2 ^ 16 ∧ (match i with
  | directory _ _ fsid _ _ => fsid.1 < 2 ^ 32 ∧ fsid.2 < 2 ^ 32
  | other kind _ _ => kind ≠ infoDfidName ∧ kind ≠ infoDfid)

end Info

/-- An event with its records (`fanotify_event_metadata`), its header longer by `extra`. -/
structure Event where
  vers : UInt8
  reserved : UInt8
  mask : Nat
  fd : Nat
  pid : Nat
  extra : Bytes
  infos : List Info

namespace Event

def infoBytes (e : Event) : Bytes := e.infos.flatMap Info.encode

def encode (e : Event) : Bytes :=
  write 4 (24 + e.extra.length + e.infoBytes.length) ++ ([e.vers, e.reserved] ++ (write 2 (24 + e.extra.length) ++
    (write 8 e.mask ++ (write 4 e.fd ++ (write 4 e.pid ++ (e.extra ++ e.infoBytes))))))

structure WellFormed (e : Event) : Prop where
  infos : ∀ i ∈ e.infos, i.WellFormed
  header : 24 + e.extra.length < 2 ^ 16
  length : 24 + e.extra.length + e.infoBytes.length < 2 ^ 32
  mask : e.mask < 2 ^ 64
  fd : e.fd < 2 ^ 32
  pid : e.pid < 2 ^ 32

/-- What an event says. -/
def effects (e : Event) : List Effect :=
  (if 0 ≤ toI32 e.fd then [.close (toI32 e.fd)] else []) ++ (if e.mask &&& overflowBit ≠ 0 then [.overflow] else []) ++
    (e.infos.filterMap Info.identified).map fun d => .signal d.1 d.2 (toI32 e.pid)

end Event

/-! ## Well-formed buffers -/

section Encoded

theorem length_key (h : KernelHandle) : h.key.length = 4 + h.bytes.length := by
  rw [KernelHandle.key, List.length_append, length_write]

theorem length_encode_info (i : Info) : i.encode.length = 4 + i.body.length := by
  unfold Info.encode
  rw [List.length_cons, List.length_cons, List.length_append, length_write]
  omega

/-- A record of a directory identifies it, any other does nothing. -/
theorem readRecord_encode (pid : Int) {i : Info} (hi : i.WellFormed) :
    readRecord pid i.kind i.encode = some ((i.identified.map fun d => Effect.signal d.1 d.2 pid).toList) := by
  cases i with
  | other kind pad body =>
    have hkind : ¬(kind = infoDfidName ∨ kind = infoDfid) := not_or.2 hi.2
    unfold readRecord
    exact if_neg fun h => hkind h.1
  | directory named pad fsid handle after =>
    obtain ⟨hlen, hmajor, hminor⟩ := hi
    have hkind : (Info.directory named pad fsid handle after).kind = infoDfidName ∨
        (Info.directory named pad fsid handle after).kind = infoDfid := by
      cases named
      · exact .inr rfl
      · exact .inl rfl
    have hle := handle.length_le
    unfold maxHandle at hle
    have hbody : (Info.directory named pad fsid handle after).body.length = 16 + handle.bytes.length + after.length := by
      simp only [Info.body, List.length_append, length_write, length_key]
      omega
    have hlength := length_encode_info (.directory named pad fsid handle after)
    -- past the kind, the padding and the length
    have hskip : ∀ j len, window (Info.directory named pad fsid handle after).encode (4 + j) len =
        window (Info.directory named pad fsid handle after).body j len := fun j len => by
      have h : (Info.directory named pad fsid handle after).encode =
          ([(Info.directory named pad fsid handle after).kind, pad] ++
            write 2 (4 + (Info.directory named pad fsid handle after).body.length)) ++
            (Info.directory named pad fsid handle after).body := rfl
      rw [h]
      exact window_skip (by simp)
    have h1 : window (Info.directory named pad fsid handle after).encode 4 4 = some (write 4 fsid.1) := by
      refine (hskip 0 4).trans ?_
      exact window_head (by simp)
    have h2 : window (Info.directory named pad fsid handle after).encode 8 4 = some (write 4 fsid.2) := by
      refine (hskip 4 4).trans ?_
      unfold Info.body
      rw [window_skip (i := 0) (by simp)]
      exact window_head (by simp)
    have h3 : window (Info.directory named pad fsid handle after).encode 12 4 = some (write 4 handle.bytes.length) := by
      refine (hskip 8 4).trans ?_
      unfold Info.body
      rw [window_skip (i := 4) (by simp), window_skip (i := 0) (by simp)]
      exact window_head (by simp)
    have h4 : window (Info.directory named pad fsid handle after).encode 16 (4 + handle.bytes.length) = some handle.key := by
      refine (hskip 12 _).trans ?_
      unfold Info.body
      rw [window_skip (i := 8) (by simp), window_skip (i := 4) (by simp), window_skip (i := 0) (by simp)]
      exact window_head (length_key handle).symm
    have hbytes : read (write 4 handle.bytes.length) = handle.bytes.length := read_write (by omega)
    unfold readRecord
    rw [if_pos ⟨hkind, by omega⟩, h1, h2, h3]
    dsimp only [Option.bind_eq_bind, Option.bind_some]
    rw [hbytes, if_pos (by omega), h4, read_write (by omega), read_write (by omega)]
    rfl

/-- Well-formed records are read one after the other. -/
theorem parseInfo_encode (pid : Int) : ∀ (infos : List Info), (∀ i ∈ infos, i.WellFormed) → ∀ fuel > (infos.flatMap Info.encode).length,
    parseInfo pid fuel (infos.flatMap Info.encode) = some ((infos.filterMap Info.identified).map fun d => .signal d.1 d.2 pid)
  | [], _, fuel, hf => by
    obtain ⟨fuel, rfl⟩ := Nat.exists_eq_succ_of_ne_zero (Nat.ne_of_gt (Nat.zero_lt_of_lt hf))
    rfl
  | i :: infos, h, fuel, hf => by
    obtain ⟨fuel, rfl⟩ := Nat.exists_eq_succ_of_ne_zero (Nat.ne_of_gt (Nat.zero_lt_of_lt hf))
    have hi := h i (List.mem_cons_self ..)
    have hlength := length_encode_info i
    have hfits := hi.1
    rw [List.flatMap_cons, List.length_append] at hf
    have ih := parseInfo_encode pid infos (fun x hx => h x (List.mem_cons_of_mem _ hx)) fuel (by omega)
    have hkind : (i.encode ++ infos.flatMap Info.encode)[0]? = some i.kind := rfl
    have hlen : window (i.encode ++ infos.flatMap Info.encode) 2 2 = some (write 2 (4 + i.body.length)) := by
      have he : i.encode ++ infos.flatMap Info.encode =
          [i.kind, i.pad] ++ (write 2 (4 + i.body.length) ++ (i.body ++ infos.flatMap Info.encode)) := by
        unfold Info.encode
        simp only [List.cons_append, List.nil_append, List.append_assoc]
      rw [he, window_skip (i := 0) (by simp)]
      exact window_head (by simp)
    have hread : read (write 2 (4 + i.body.length)) = 4 + i.body.length := read_write (by omega)
    have hrest := @rest_eq_some (i.encode ++ infos.flatMap Info.encode) (4 + i.body.length)
      (by rw [List.length_append]; omega)
    rw [← hlength, List.drop_left] at hrest
    rw [List.flatMap_cons, parseInfo, if_neg (by rw [List.length_append]; omega), hkind, hlen]
    dsimp only [Option.bind_eq_bind, Option.bind_some]
    rw [hread, if_neg (by rw [List.length_append]; omega), window_head hlength.symm, Option.bind_some, readRecord_encode pid hi,
      Option.bind_some, ← hlength, hrest, Option.bind_some, ih, Option.bind_some]
    cases hd : i.identified with
    | none => rw [List.filterMap_cons_none hd]; rfl
    | some d => rw [List.filterMap_cons_some hd]; rfl

theorem length_encode_event (e : Event) : e.encode.length = 24 + e.extra.length + e.infoBytes.length := by
  unfold Event.encode
  simp only [List.length_append, length_write, List.length_cons, List.length_nil]
  omega

theorem parseEvent_encode {e : Event} (he : e.WellFormed) : parseEvent e.encode = some e.effects := by
  have hheader := he.header
  have hmask := he.mask
  have hfd := he.fd
  have hpid := he.pid
  have h1 : window e.encode 6 2 = some (write 2 (24 + e.extra.length)) := by
    unfold Event.encode
    rw [window_skip (i := 2) (by simp), window_skip (i := 0) (by simp)]
    exact window_head (by simp)
  have h2 : window e.encode 8 8 = some (write 8 e.mask) := by
    unfold Event.encode
    rw [window_skip (i := 4) (by simp), window_skip (i := 2) (by simp), window_skip (i := 0) (by simp)]
    exact window_head (by simp)
  have h3 : window e.encode 16 4 = some (write 4 e.fd) := by
    unfold Event.encode
    rw [window_skip (i := 12) (by simp), window_skip (i := 10) (by simp), window_skip (i := 8) (by simp), window_skip (i := 0) (by simp)]
    exact window_head (by simp)
  have h4 : window e.encode 20 4 = some (write 4 e.pid) := by
    unfold Event.encode
    rw [window_skip (i := 16) (by simp), window_skip (i := 14) (by simp), window_skip (i := 12) (by simp),
      window_skip (i := 4) (by simp), window_skip (i := 0) (by simp)]
    exact window_head (by simp)
  have hlength := length_encode_event e
  have hmin : min (24 + e.extra.length) e.encode.length = 24 + e.extra.length := Nat.min_eq_left (by omega)
  have h5 : rest e.encode (24 + e.extra.length) = some e.infoBytes := by
    have hsplit : e.encode = (write 4 (24 + e.extra.length + e.infoBytes.length) ++ ([e.vers, e.reserved] ++ (write 2 (24 + e.extra.length) ++
        (write 8 e.mask ++ (write 4 e.fd ++ (write 4 e.pid ++ e.extra)))))) ++ e.infoBytes := by
      unfold Event.encode
      simp only [List.append_assoc]
    rw [rest_eq_some (by omega), hsplit, List.drop_left' (by simp; omega)]
  unfold parseEvent
  rw [h1, h2, h3, h4]
  dsimp only [Option.bind_eq_bind, Option.bind_some]
  rw [read_write (by omega), read_write (by omega), read_write (by omega), read_write (by omega), hmin, h5, Option.bind_some]
  unfold Event.infoBytes
  rw [parseInfo_encode _ e.infos he.infos _ (Nat.lt_succ_self _)]
  rfl

/-- Well-formed events are read one after the other. -/
theorem parse_encode : ∀ (es : List Event), (∀ e ∈ es, e.WellFormed) → ∀ fuel > (es.flatMap Event.encode).length,
    parse fuel (es.flatMap Event.encode) = some (es.flatMap Event.effects)
  | [], _, fuel, hf => by
    obtain ⟨fuel, rfl⟩ := Nat.exists_eq_succ_of_ne_zero (Nat.ne_of_gt (Nat.zero_lt_of_lt hf))
    rfl
  | e :: es, h, fuel, hf => by
    obtain ⟨fuel, rfl⟩ := Nat.exists_eq_succ_of_ne_zero (Nat.ne_of_gt (Nat.zero_lt_of_lt hf))
    have he := h e (List.mem_cons_self ..)
    have hlength := length_encode_event e
    have hfits := he.length
    rw [List.flatMap_cons, List.length_append] at hf
    have ih := parse_encode es (fun x hx => h x (List.mem_cons_of_mem _ hx)) fuel (by omega)
    have hlen : window (e.encode ++ es.flatMap Event.encode) 0 4 = some (write 4 (24 + e.extra.length + e.infoBytes.length)) := by
      unfold Event.encode
      rw [List.append_assoc]
      exact window_head (by simp)
    have hread : read (write 4 (24 + e.extra.length + e.infoBytes.length)) = e.encode.length := by
      rw [hlength]
      exact read_write (by omega)
    have hrest := @rest_eq_some (e.encode ++ es.flatMap Event.encode) e.encode.length
      (by rw [List.length_append]; omega)
    rw [List.drop_left] at hrest
    rw [List.flatMap_cons, parse, if_neg (by rw [List.length_append]; omega), hlen]
    dsimp only [Option.bind_eq_bind, Option.bind_some]
    rw [hread, if_neg (by rw [List.length_append]; omega), window_head rfl, Option.bind_some, parseEvent_encode he, Option.bind_some,
      hrest, Option.bind_some, ih]
    rfl

/-- The directory an effect signals. -/
def Effect.signalled : Effect → Option ((Int × Int) × Bytes)
  | .signal fsid key _ => some (fsid, key)
  | _ => none

theorem signalled_effects (e : Event) : e.effects.filterMap Effect.signalled = e.infos.filterMap Info.identified := by
  unfold Event.effects
  rw [List.filterMap_append, List.filterMap_append, List.filterMap_map]
  have hclose : (if 0 ≤ toI32 e.fd then [Effect.close (toI32 e.fd)] else []).filterMap Effect.signalled = [] := by split <;> rfl
  have hoverflow : (if e.mask &&& overflowBit ≠ 0 then [Effect.overflow] else []).filterMap Effect.signalled = [] := by split <;> rfl
  have hsignal : (Effect.signalled ∘ fun d : (Int × Int) × Bytes => Effect.signal d.1 d.2 (toI32 e.pid)) = some := rfl
  rw [hclose, hoverflow, hsignal, List.filterMap_some]
  rfl

/-- Every buffer is read to an end and within its bounds; one of well-formed events signals exactly the
directories its records identify, in order, by the keys the walk gets for their handles. -/
theorem parse_exact (events : Bytes) :
    (∃ effects, ∀ fuel > events.length, parse fuel events = some effects) ∧
      (∀ es : List Event, (∀ e ∈ es, e.WellFormed) → events = es.flatMap Event.encode →
        ∃ effects, (∀ fuel > events.length, parse fuel events = some effects) ∧
          effects.filterMap Effect.signalled = es.flatMap fun e => e.infos.filterMap Info.identified) ∧
      ∀ (named : Bool) (pad : UInt8) (fsid : Nat × Nat) (handle : KernelHandle) (after leftover : Bytes),
        ((Info.directory named pad fsid handle after).identified.map Prod.snd) = handleAt (some (handle.answer leftover)) := by
  refine ⟨parse_isSome _ events (Nat.lt_succ_self _), fun es he h => ?_, fun named pad fsid handle after leftover => ?_⟩
  · subst h
    refine ⟨_, parse_encode es he, ?_⟩
    rw [List.filterMap_flatMap]
    exact congrArg (fun f => es.flatMap f) (funext signalled_effects)
  · exact (handleAt_answer handle leftover).symm

end Encoded

/-- A directory of file system (3, -1) with the handle 5, 6 of type 1, changed by process 7. -/
def sampleEvent : Event where
  vers := 3
  reserved := 0
  mask := 256
  fd := 2 ^ 32 - 1
  pid := 7
  extra := []
  infos := [.other 1 0 [9], .directory true 0 (3, 2 ^ 32 - 1) ⟨1, [5, 6], by decide, by decide⟩ [120, 0]]

example : parse 80 (sampleEvent.encode ++ [1, 2]) = some [.signal (3, -1) [1, 0, 0, 0, 5, 6] 7] := by decide

theorem parse_exact_sample : ∃ effects, (∀ fuel > sampleEvent.encode.length, parse fuel (sampleEvent.encode ++ []) = some effects) ∧
    effects.filterMap Effect.signalled = [((3, -1), [1, 0, 0, 0, 5, 6])] :=
  (parse_exact (sampleEvent.encode ++ [])).2.1 [sampleEvent]
    (fun e he => by
      rw [List.mem_singleton.1 he]
      refine ⟨fun i hi => ?_, by decide, by decide, by decide, by decide, by decide⟩
      rcases List.mem_cons.1 hi with rfl | hi
      · exact ⟨by decide, by decide⟩
      · rw [List.mem_singleton.1 hi]
        exact ⟨by decide, by decide⟩)
    rfl

end StorageHarvester.Fanotify
