/-
Which whole disks a block device sits on (`src/fsinfo.rs`). `/sys` has a directory for each device; those
it is built on are its `slaves`, and a partition's directory is in its disk's. The search goes down through
the slaves, and ends at the devices without any. A disk is named by a designator on its VPD page 0x83, or
else by its serial number or WWID.
-/
import StorageHarvester.Config.Resolve
import StorageHarvester.Lib.LittleEndian
import StorageHarvester.Lib.Records
import StorageHarvester.Lib.Search
import StorageHarvester.Lib.Text

namespace StorageHarvester.Fsinfo

open LittleEndian (window)
open Records (firsts)
open Search (Reached search)
open Text (isWhitespace trim trimMatches)

/-! ## VPD pages -/

/-- What a vendor-specific designator has to say. -/
def vendorText (data : Bytes) : Bytes := trimMatches (fun c => c = [0] || isWhitespace c) (Utf8.lossy data)

/-- The loop of `vpd83_vendor_id`, for at most `fuel` rounds; `none` if it panics or goes on. -/
def vpd83Loop (page : Bytes) (stop : Nat) : Nat → Nat → Option (Option Bytes)
  | 0, _ => none
  | fuel + 1, at_ =>
    if at_ + 4 ≤ stop then do
      let codeSet := (← page[at_]?) &&& 0x0f
      let kind := (← page[at_ + 1]?) &&& 0x0f
      let len := (← page[at_ + 3]?).toNat
      match window page (at_ + 4) len with
      | none => some none
      | some data =>
        if kind = 0 ∧ (codeSet = 2 ∨ codeSet = 3) ∧ vendorText data ≠ [] then some (some (vendorText data))
        else vpd83Loop page stop fuel (at_ + 4 + len)
    else some none

def vpd83VendorId (page : Bytes) : Option (Option Bytes) :=
  match page with
  | _ :: code :: high :: low :: _ =>
    if code ≠ 0x83 then some none
    else vpd83Loop page (min (4 + (high.toNat * 256 + low.toNat)) page.length) (page.length + 1) 4
  | _ => some none

/-! ## Devices -/

/-- What `/sys` says, at one moment, of finitely many devices. -/
structure Sysfs where
  canonicalize : Bytes → Option Bytes
  /-- The paths of a directory's entries, where it can be read. -/
  readDir : Bytes → Option (List Bytes)
  exists_ : Bytes → Bool
  read : Bytes → Option Bytes
  devices : List Bytes
  known : ∀ path device, canonicalize path = some device → device ∈ devices

/-- `Path::parent`, of an absolute path without anything to leave out. -/
def parent (path : Bytes) : Option Bytes :=
  if path = [slash] then none
  else
    let dir := ((path.reverse.dropWhile (· ≠ slash)).drop 1).reverse
    some (if dir = [] then [slash] else dir)

namespace Sysfs

variable (sys : Sysfs)

/-- `fs::read_to_string`. -/
def readToString (path : Bytes) : Option Bytes := (sys.read path).filter fun text => Utf8.valid text

/-- The devices that a device is built on. -/
def below (device : Bytes) : List Bytes := (sys.readDir (pushComponent device (ascii "slaves"))).getD []

/-- The disk that a device is, or is a partition of. -/
def diskAt (device : Bytes) : Bytes :=
  if sys.exists_ (pushComponent device (ascii "partition")) then (parent device).getD device else device

/-- The loop of `whole_disks`, for at most `fuel` rounds; `none` if it goes on. -/
def wholeDisksLoop : Nat → List Bytes → List Bytes → List Bytes → Option (List Bytes)
  | 0, _, _, _ => none
  | fuel + 1, disks, seen, stack =>
    match stack.getLast? with
    | none => some disks
    | some path =>
      match sys.canonicalize path with
      | none => wholeDisksLoop fuel disks seen stack.dropLast
      | some device =>
        if seen.contains device then wholeDisksLoop fuel disks seen stack.dropLast
        else if sys.below device ≠ [] then wholeDisksLoop fuel disks (seen ++ [device]) (stack.dropLast ++ sys.below device)
        else
          let disk := sys.diskAt device
          wholeDisksLoop fuel (if disks.contains disk then disks else disks ++ [disk]) (seen ++ [device]) stack.dropLast

/-- Where `/sys` has the device of a number. -/
def devicePath (id : Bytes) : Bytes := ascii "/sys/dev/block/" ++ id

def wholeDisks (fuel : Nat) (id : Bytes) : Option (List Bytes) := sys.wholeDisksLoop fuel [] [] [devicePath id]

def diskId (disk : Bytes) : Option Bytes :=
  match (sys.read (pushComponent disk (ascii "device/vpd_pg83"))).bind fun page => (vpd83VendorId page).join with
  | some name => some name
  | none => (["serial", "device/serial", "wwid", "device/wwid"].filterMap fun file =>
      (sys.readToString (pushComponent disk (ascii file))).map trim).find? (· ≠ [])

def disksOf (fuel : Nat) (id : Bytes) : Option (List Bytes) :=
  (sys.wholeDisks fuel id).map fun disks => disks.foldl (fun names disk => match sys.diskId disk with
    | some name => if names.contains name then names else names ++ [name]
    | none => names) []

/-- The disks that `layout` describes. -/
def layoutDisks (fuel : Nat) (ids : List Bytes) : Option (List Bytes) :=
  ids.foldlM (fun disks id => (sys.wholeDisks fuel id).map fun found =>
    found.foldl (fun disks disk => if disks.contains disk then disks else disks ++ [disk]) disks) []

end Sysfs

/-! ## What the pages say -/

/-- A designator, with the byte between its kind and its length. -/
structure Designator where
  set : UInt8
  kind : UInt8
  reserved : UInt8
  data : Bytes

namespace Designator

def encode (d : Designator) : Bytes := d.set :: d.kind :: d.reserved :: UInt8.ofNat d.data.length :: d.data

/-- The name that a designator gives, if it is a vendor's text and not blank. -/
def name (d : Designator) : Option Bytes :=
  if d.kind &&& 0x0f = 0 ∧ (d.set &&& 0x0f = 2 ∨ d.set &&& 0x0f = 3) ∧ vendorText d.data ≠ [] then some (vendorText d.data) else none

theorem length_encode (d : Designator) : d.encode.length = 4 + d.data.length := by
  unfold encode
  simp only [List.length_cons]
  omega

end Designator

section Pages

variable {page : Bytes} {stop : Nat}

/-- Inside the page the loop reads no byte that is not there, and comes to its end. -/
theorem vpd83Loop_some (hs : stop ≤ page.length) : ∀ (fuel at_ : Nat), stop - at_ < fuel → ∃ name, vpd83Loop page stop fuel at_ = some name
  | 0, _, hf => absurd hf (Nat.not_lt_zero _)
  | fuel + 1, at_, hf => by
    rw [vpd83Loop]
    by_cases hat : at_ + 4 ≤ stop
    · rw [if_pos hat, List.getElem?_eq_getElem (show at_ < page.length by omega),
        List.getElem?_eq_getElem (show at_ + 1 < page.length by omega), List.getElem?_eq_getElem (show at_ + 3 < page.length by omega)]
      simp only [Option.bind_eq_bind, Option.bind_some]
      split
      · exact ⟨none, rfl⟩
      · split
        · exact ⟨_, rfl⟩
        · exact vpd83Loop_some hs fuel _ (by omega)
    · exact ⟨none, if_neg hat⟩

/-- Past a designator the loop goes on behind it, unless that gives a name. -/
theorem vpd83Loop_designator (d : Designator) {front rest : Bytes} (hp : page = front ++ (d.encode ++ rest)) (hd : d.data.length < 256)
    (hs : front.length + d.encode.length ≤ stop) (fuel : Nat) :
    vpd83Loop page stop (fuel + 1) front.length =
      match d.name with
      | some name => some (some name)
      | none => vpd83Loop page stop fuel (front.length + d.encode.length) := by
  have hlen := d.length_encode
  have hbyte : ∀ k (b : UInt8), (d.encode ++ rest)[k]? = some b → page[front.length + k]? = some b := fun k b hb => by
    rw [hp, List.getElem?_append_right (Nat.le_add_right _ _), Nat.add_sub_cancel_left, hb]
  have hset : page[front.length]? = some d.set := hbyte 0 _ rfl
  have hkind : page[front.length + 1]? = some d.kind := hbyte 1 _ rfl
  have hsize : page[front.length + 3]? = some (UInt8.ofNat d.data.length) := hbyte 3 _ rfl
  have hnat : (UInt8.ofNat d.data.length).toNat = d.data.length := by
    rw [UInt8.toNat_ofNat']
    exact Nat.mod_eq_of_lt hd
  have hcut : window page (front.length + 4) d.data.length = some d.data := by
    have hfront : page = (front ++ [d.set, d.kind, d.reserved, UInt8.ofNat d.data.length]) ++ (d.data ++ rest) := by
      rw [hp, List.append_assoc]
      rfl
    have hfour : front.length + 4 = (front ++ [d.set, d.kind, d.reserved, UInt8.ofNat d.data.length]).length + 0 := by
      rw [List.length_append]
      rfl
    rw [hfront, LittleEndian.window_skip hfour]
    exact LittleEndian.window_head rfl
  rw [vpd83Loop, if_pos (by omega), hset, hkind, hsize]
  simp only [Option.bind_eq_bind, Option.bind_some, hnat, hcut]
  unfold Designator.name
  split_ifs
  · rfl
  · rw [hlen, Nat.add_assoc]

theorem vpd83Loop_designators : ∀ (ds : List Designator) {front rest : Bytes}, page = front ++ (ds.flatMap Designator.encode ++ rest) →
    (∀ d ∈ ds, d.data.length < 256) → stop = front.length + (ds.flatMap Designator.encode).length → ∀ {fuel : Nat}, ds.length < fuel →
    vpd83Loop page stop fuel front.length = some (ds.findSome? Designator.name)
  | _, _, _, _, _, _, 0, hf => absurd hf (Nat.not_lt_zero _)
  | [], front, _, _, _, hs, fuel + 1, _ => by
    rw [vpd83Loop, if_neg (by rw [hs]; simp)]
    rfl
  | d :: ds, front, rest, hp, hd, hs, fuel + 1, hf => by
    rw [List.flatMap_cons] at hp hs
    rw [List.length_append] at hs
    have hp' : page = (front ++ d.encode) ++ (ds.flatMap Designator.encode ++ rest) := by
      rw [hp, List.append_assoc, List.append_assoc]
    rw [vpd83Loop_designator d (by rw [hp, List.append_assoc]) (hd d (List.mem_cons_self ..)) (by omega), List.findSome?_cons]
    cases d.name with
    | some name => rfl
    | none =>
      dsimp only
      rw [← List.length_append]
      refine vpd83Loop_designators ds hp' (fun x hx => hd x (List.mem_cons_of_mem _ hx)) ?_ (Nat.lt_of_succ_lt_succ hf)
      rw [hs, List.length_append]
      omega

/-- Of any page whatever something is read or nothing, without a byte beyond its end; and of a page that lists
designators the first name given, whatever follows them. -/
theorem vpd83_reads : (∀ page, ∃ name, vpd83VendorId page = some name) ∧
    ∀ (first : UInt8) (ds : List Designator) (rest : Bytes), (∀ d ∈ ds, d.data.length < 256) →
      (ds.flatMap Designator.encode).length < 2 ^ 16 →
      vpd83VendorId (first :: 0x83 :: UInt8.ofNat ((ds.flatMap Designator.encode).length / 256) ::
        UInt8.ofNat ((ds.flatMap Designator.encode).length % 256) :: (ds.flatMap Designator.encode ++ rest)) =
        some (ds.findSome? Designator.name) := by
  constructor
  · intro page
    unfold vpd83VendorId
    split
    · split
      · exact ⟨none, rfl⟩
      · exact vpd83Loop_some (Nat.min_le_right _ _) _ _ (by omega)
    · exact ⟨none, rfl⟩
  · intro first ds rest hd hlen
    generalize hbody : ds.flatMap Designator.encode = body at hlen
    have hcount : ds.length ≤ body.length := by
      rw [← hbody, List.length_flatMap]
      have hone : ∀ n ∈ ds.map fun d => d.encode.length, 1 ≤ n := by
        intro n hn
        obtain ⟨d, -, rfl⟩ := List.mem_map.1 hn
        rw [d.length_encode]
        omega
      simpa using List.length_le_sum_of_one_le _ hone
    have hhigh : (UInt8.ofNat (body.length / 256)).toNat = body.length / 256 := by
      rw [UInt8.toNat_ofNat']
      omega
    have hlow : (UInt8.ofNat (body.length % 256)).toNat = body.length % 256 := by
      rw [UInt8.toNat_ofNat']
      omega
    have hstop : min (4 + ((UInt8.ofNat (body.length / 256)).toNat * 256 + (UInt8.ofNat (body.length % 256)).toNat))
        (body.length + rest.length + 1 + 1 + 1 + 1) = 4 + body.length := by
      rw [hhigh, hlow]
      omega
    unfold vpd83VendorId
    dsimp only
    rw [if_neg (fun h => h rfl)]
    simp only [List.length_cons, List.length_append]
    rw [hstop]
    refine @vpd83Loop_designators _ _ ds [first, 0x83, UInt8.ofNat (body.length / 256), UInt8.ofNat (body.length % 256)] rest ?_ hd ?_ _ ?_
    · rw [hbody]
      rfl
    · rw [hbody]
      rfl
    · omega

/-- The page of a virtual machine's second disk: a number first, which names nothing, then the vendor's text. -/
theorem vpd83_reads_virtio : vpd83VendorId ([0x00, 0x83, 0x00, 0x1d] ++ [0x01, 0x03, 0x00, 0x08, 0x60, 0, 0, 0, 0, 0, 0, 1] ++
    [0x02, 0x00, 0x00, 0x0d] ++ ascii "drive-virtio1") = some (some (ascii "drive-virtio1")) := by
  have hname : [⟨0x01, 0x03, 0x00, [0x60, 0, 0, 0, 0, 0, 0, 1]⟩, ⟨0x02, 0x00, 0x00, ascii "drive-virtio1"⟩].findSome? Designator.name =
      some (ascii "drive-virtio1") := by decide
  rw [← hname]
  exact vpd83_reads.2 0x00 [⟨0x01, 0x03, 0x00, [0x60, 0, 0, 0, 0, 0, 0, 1]⟩, ⟨0x02, 0x00, 0x00, ascii "drive-virtio1"⟩] []
    (by decide) (by decide)

end Pages

/-! ## What the search finds -/

namespace Sysfs

variable {sys : Sysfs}

/-- A list without what is in it before. -/
def distinct (l : List Bytes) : List Bytes := firsts (fun x => x) l

theorem mem_distinct {l : List Bytes} {x : Bytes} : x ∈ distinct l ↔ x ∈ l := by
  constructor
  · exact Records.mem_of_firsts
  · rintro hx
    obtain ⟨y, hy, rfl⟩ : ∃ y ∈ distinct l, y = x := Records.exists_firsts hx
    exact hy

theorem nodup_distinct (l : List Bytes) : (distinct l).Nodup := by
  have hnodup : ((distinct l).map fun x => x).Nodup := Records.nodup_firsts l
  rwa [List.map_id'] at hnodup

theorem distinct_concat (l : List Bytes) (x : Bytes) :
    distinct (l ++ [x]) = if (distinct l).contains x then distinct l else distinct l ++ [x] := by
  have hany : ((distinct l).any fun y => decide (y = x)) = true ↔ (distinct l).contains x = true := by simp
  have hconcat : distinct (l ++ [x]) = if (distinct l).any (fun y => decide (y = x)) then distinct l else distinct l ++ [x] :=
    Records.firsts_concat l x
  rw [hconcat]
  by_cases hin : (distinct l).contains x = true
  · rw [if_pos hin, if_pos (hany.2 hin)]
  · rw [if_neg hin, if_neg fun h => hin (hany.1 h)]

theorem foldl_distinct (more : List Bytes) : ∀ l : List Bytes,
    more.foldl (fun l x => if l.contains x then l else l ++ [x]) (distinct l) = distinct (l ++ more) := by
  induction more with
  | nil => intro l; rw [List.append_nil]; rfl
  | cons x more ih =>
    intro l
    rw [List.foldl_cons, ← distinct_concat, ih, List.append_assoc]
    rfl

/-- The disks of the devices seen that are built on no others, in the order they were seen. -/
def seenDisks (sys : Sysfs) (seen : List Bytes) : List Bytes := (seen.filter fun device => sys.below device = []).map sys.diskAt

/-- The loop is a search through the devices, with the disks at its ends put down on the way. -/
theorem wholeDisksLoop_eq : ∀ (fuel : Nat) (seen stack : List Bytes),
    sys.wholeDisksLoop fuel (distinct (seenDisks sys seen)) seen stack =
      (search sys.canonicalize sys.below fuel seen stack).map fun seen' => distinct (seenDisks sys seen')
  | 0, _, _ => rfl
  | fuel + 1, seen, stack => by
    rcases List.eq_nil_or_concat stack with rfl | ⟨stack, path, rfl⟩
    · rfl
    · rw [List.concat_eq_append, Search.search_concat, wholeDisksLoop]
      simp only [List.getLast?_concat, List.dropLast_concat]
      cases sys.canonicalize path with
      | none => exact wholeDisksLoop_eq fuel seen stack
      | some device =>
        dsimp only
        by_cases hseen : device ∈ seen
        · rw [if_pos (List.contains_iff_mem.2 hseen), if_pos hseen]
          exact wholeDisksLoop_eq fuel seen stack
        · rw [if_neg fun h => hseen (List.contains_iff_mem.1 h), if_neg hseen, ← wholeDisksLoop_eq fuel (seen ++ [device])]
          by_cases hbelow : sys.below device = []
          · have hdisks : seenDisks sys (seen ++ [device]) = seenDisks sys seen ++ [sys.diskAt device] := by
              unfold seenDisks
              rw [List.filter_append, List.filter_cons_of_pos (by simpa using hbelow), List.map_append]
              rfl
            rw [if_neg (not_not.2 hbelow), hdisks, distinct_concat, hbelow, List.append_nil]
          · have hdisks : seenDisks sys (seen ++ [device]) = seenDisks sys seen := by
              unfold seenDisks
              rw [List.filter_append, List.filter_cons_of_neg (by simpa using hbelow), List.filter_nil, List.append_nil]
            rw [if_pos hbelow, hdisks]

/-- A disk under the device of a number: that of a device built on no others, which the slaves lead to. -/
def Under (sys : Sysfs) (id disk : Bytes) : Prop :=
  ∃ device, Reached sys.canonicalize sys.below [devicePath id] device ∧ sys.below device = [] ∧ disk = sys.diskAt device

theorem wholeDisks_found (sys : Sysfs) (id : Bytes) : ∃ disks : List Bytes, disks.Nodup ∧ (∀ disk, disk ∈ disks ↔ sys.Under id disk) ∧
    ∃ rounds, ∀ fuel, rounds ≤ fuel → sys.wholeDisks fuel id = some disks := by
  obtain ⟨seen, -, hseen, rounds, hrounds⟩ : ∃ seen : List Bytes, seen.Nodup ∧
      (∀ a, a ∈ seen ↔ Reached sys.canonicalize sys.below [devicePath id] a) ∧
      ∃ rounds, ∀ fuel, rounds ≤ fuel → search sys.canonicalize sys.below fuel [] [devicePath id] = some seen :=
    Search.search_sees sys.known [devicePath id]
  refine ⟨distinct (seenDisks sys seen), nodup_distinct _, fun disk => ?_, rounds, fun fuel hf => ?_⟩
  · rw [mem_distinct]
    unfold seenDisks
    rw [List.mem_map]
    constructor
    · rintro ⟨device, hd, rfl⟩
      obtain ⟨hd, hbelow⟩ := List.mem_filter.1 hd
      exact ⟨device, (hseen device).1 hd, of_decide_eq_true hbelow, rfl⟩
    · rintro ⟨device, hd, hbelow, rfl⟩
      exact ⟨device, List.mem_filter.2 ⟨(hseen device).2 hd, decide_eq_true hbelow⟩, rfl⟩
  · have hloop : sys.wholeDisksLoop fuel (distinct (seenDisks sys [])) [] [devicePath id] =
        (search sys.canonicalize sys.below fuel [] [devicePath id]).map fun seen => distinct (seenDisks sys seen) :=
      wholeDisksLoop_eq fuel [] [devicePath id]
    rw [hrounds fuel hf] at hloop
    exact hloop

theorem layoutDisks_found (sys : Sysfs) : ∀ ids before : List Bytes, ∃ found : List Bytes, (∀ disk, disk ∈ found ↔ ∃ id ∈ ids, sys.Under id disk) ∧
    ∃ rounds, ∀ fuel, rounds ≤ fuel →
      ids.foldlM (fun disks id => (sys.wholeDisks fuel id).map fun found =>
        found.foldl (fun disks disk => if disks.contains disk then disks else disks ++ [disk]) disks) (distinct before) =
        some (distinct (before ++ found))
  | [], before => ⟨[], fun disk => by simp, 0, fun fuel _ => by rw [List.append_nil]; rfl⟩
  | id :: ids, before => by
    obtain ⟨disks, -, hdisks, rounds, hrounds⟩ := wholeDisks_found sys id
    obtain ⟨found, hfound, rounds', hrounds'⟩ := layoutDisks_found sys ids (before ++ disks)
    refine ⟨disks ++ found, fun disk => ?_, max rounds rounds', fun fuel hf => ?_⟩
    · rw [List.mem_append, hdisks, hfound]
      simp
    · rw [List.foldlM_cons, hrounds fuel (le_of_max_le_left hf), Option.map_some, foldl_distinct]
      show List.foldlM _ (distinct (before ++ disks)) ids = _
      rw [hrounds' fuel (le_of_max_le_right hf), List.append_assoc]

theorem disksOf_eq {fuel : Nat} {id : Bytes} {disks : List Bytes} (h : sys.wholeDisks fuel id = some disks) :
    sys.disksOf fuel id = some (distinct (disks.filterMap sys.diskId)) := by
  unfold disksOf
  rw [h, Option.map_some, ← List.nil_append (disks.filterMap sys.diskId), ← foldl_distinct, List.foldl_filterMap]
  congr 2
  funext names disk
  cases sys.diskId disk <;> rfl

theorem disksOf_found (sys : Sysfs) (id : Bytes) :
    ∃ names : List Bytes, names.Nodup ∧ (∀ name, name ∈ names ↔ ∃ disk, sys.Under id disk ∧ sys.diskId disk = some name) ∧
      ∃ rounds, ∀ fuel, rounds ≤ fuel → sys.disksOf fuel id = some names := by
  obtain ⟨disks, -, hdisks, rounds, hrounds⟩ := wholeDisks_found sys id
  refine ⟨distinct (disks.filterMap sys.diskId), nodup_distinct _, fun name => ?_, rounds, fun fuel hf => disksOf_eq (hrounds fuel hf)⟩
  rw [mem_distinct, List.mem_filterMap]
  simp only [hdisks]

/-- Whatever is built on what, in a circle or not, the searches come to their ends. `layout` is of each disk once
that lies under one of the filesystems, and of no other; and `disks_of` has each name once of the disks under its device. -/
theorem disks_found (sys : Sysfs) :
    (∀ ids, ∃ disks : List Bytes, disks.Nodup ∧ (∀ disk, disk ∈ disks ↔ ∃ id ∈ ids, sys.Under id disk) ∧
      ∃ rounds, ∀ fuel, rounds ≤ fuel → sys.layoutDisks fuel ids = some disks) ∧
    ∀ id, ∃ names : List Bytes, names.Nodup ∧ (∀ name, name ∈ names ↔ ∃ disk, sys.Under id disk ∧ sys.diskId disk = some name) ∧
      ∃ rounds, ∀ fuel, rounds ≤ fuel → sys.disksOf fuel id = some names := by
  refine ⟨fun ids => ?_, disksOf_found sys⟩
  obtain ⟨found, hfound, rounds, hrounds⟩ := layoutDisks_found sys ids []
  exact ⟨distinct found, nodup_distinct found, fun disk => mem_distinct.trans (hfound disk), rounds, hrounds⟩

end Sysfs

/-- Two mirrored disks, one of them by a partition. -/
def mirrorSys : Sysfs where
  canonicalize path :=
    if path = ascii "/sys/dev/block/9:0" then some (ascii "/sys/devices/md0")
    else if path = ascii "/sys/devices/md0/slaves/sda1" then some (ascii "/sys/devices/sda/sda1")
    else if path = ascii "/sys/devices/md0/slaves/sdb" then some (ascii "/sys/devices/sdb")
    else none
  readDir path :=
    if path = ascii "/sys/devices/md0/slaves" then some [ascii "/sys/devices/md0/slaves/sda1", ascii "/sys/devices/md0/slaves/sdb"] else none
  exists_ path := path = ascii "/sys/devices/sda/sda1/partition"
  read path := if path = ascii "/sys/devices/sdb/serial" then some (ascii "S2 ") else none
  devices := [ascii "/sys/devices/md0", ascii "/sys/devices/sda/sda1", ascii "/sys/devices/sdb"]
  known path device h := by
    split at h
    · cases h
      simp
    · split at h
      · cases h
        simp
      · split at h
        · cases h
          simp
        · cases h

example : mirrorSys.wholeDisks 9 (ascii "9:0") = some [ascii "/sys/devices/sdb", ascii "/sys/devices/sda"] ∧
    mirrorSys.disksOf 9 (ascii "9:0") = some [ascii "S2"] := by decide

end StorageHarvester.Fsinfo
