/-
A sample's line, and what the text format reads in it. A label value is escaped so that it holds no line
feed and ends at the first quote that is not, whatever it is; so the line gives the metric, the labels and
the number back.
-/
import StorageHarvester.Exporter.Accepted

namespace StorageHarvester.Exporter

/-! ## Writing -/

/-- `format!("{}=\\"{}\\"", ..)` of a label. -/
def writeLabel (l : Bytes × Bytes) : Bytes := l.1 ++ 61 :: quote :: (l.2 ++ [quote])

/-- The labels, joined by commas. -/
def joinLabels : List (Bytes × Bytes) → Bytes
  | [] => []
  | [l] => writeLabel l
  | l :: labels => writeLabel l ++ 44 :: joinLabels labels

/-- The line of a sample, without its end. -/
def line (m : Metric) (labels : List (Bytes × Bytes)) (n : Nat) : Bytes :=
  m.name ++ 123 :: (joinLabels labels ++ 125 :: 32 :: decimal n)

/-! ## Reading -/

def isNameStart (b : UInt8) : Bool := Bytes.isAsciiAlphabetic b || b = underscore
def isNameByte (b : UInt8) : Bool := Bytes.isAsciiAlphanumeric b || b = underscore

/-- A label name of the text format: letters, digits and underscores, no digit first. -/
def LegalName (name : Bytes) : Prop := (∃ b rest, name = b :: rest ∧ isNameStart b = true) ∧ name.all isNameByte = true

instance (name : Bytes) : Decidable (LegalName name) := decidable_of_iff (name.head?.any isNameStart = true ∧ name.all isNameByte = true) (by
  refine and_congr_left fun _ => ?_
  cases name with
  | nil => exact ⟨fun h => (by cases h), fun ⟨_, _, h, _⟩ => (by cases h)⟩
  | cons b rest => exact ⟨fun h => ⟨b, rest, rfl, h⟩, fun ⟨_, _, h, hb⟩ => by cases h; exact hb⟩)

/-- The byte an escape stands for. -/
def unescapeByte (b : UInt8) : Option UInt8 :=
  if b = backslash then some backslash
  else if b = quote then some quote
  else if b = 110 then some newline
  else none

/-- A label value up to its closing quote, and what follows. -/
def readQuoted : Bytes → Option (Bytes × Bytes)
  | [] => none
  | [b] => if b = quote then some ([], []) else none
  | b :: c :: rest =>
    if b = quote then some ([], c :: rest)
    else if b = newline then none
    else if b = backslash then (unescapeByte c).bind fun u => (readQuoted rest).map fun r => (u :: r.1, r.2)
    else (readQuoted (c :: rest)).map fun r => (b :: r.1, r.2)

/-- A label, and what follows. -/
def readLabel (s : Bytes) : Option ((Bytes × Bytes) × Bytes) :=
  let name := s.takeWhile isNameByte
  if LegalName name then
    match s.dropWhile isNameByte with
    | 61 :: 34 :: rest => (readQuoted rest).map fun r => ((name, r.1), r.2)
    | _ => none
  else none

/-- Labels up to the closing brace, at most `fuel`, and what follows. -/
def readLabels : Nat → Bytes → Option (List (Bytes × Bytes) × Bytes)
  | 0, _ => none
  | fuel + 1, s =>
    (readLabel s).bind fun l =>
      match l.2 with
      | 44 :: rest => (readLabels fuel rest).map fun r => (l.1 :: r.1, r.2)
      | 125 :: rest => some ([l.1], rest)
      | _ => none

def isDigit (b : UInt8) : Bool := 48 ≤ b && b ≤ 57

def readNumber (s : Bytes) : Option Nat :=
  if s ≠ [] ∧ s.all isDigit = true then some (s.foldl (fun n b => n * 10 + (b.toNat - 48)) 0) else none

/-- A line of the text format: metric name, labels and number. -/
def readLine (s : Bytes) : Option (Bytes × List (Bytes × Bytes) × Nat) :=
  match s.dropWhile isNameByte with
  | 123 :: rest => (readLabels (rest.length + 1) rest).bind fun r =>
      match r.2 with
      | 32 :: number => (readNumber number).map fun n => (s.takeWhile isNameByte, r.1, n)
      | _ => none
  | _ => none

/-! ## Values -/

theorem readQuoted_quote (rest : Bytes) : readQuoted (quote :: rest) = some ([], rest) := by
  cases rest <;> rfl

theorem readQuoted_cons {b : UInt8} (hquote : b ≠ quote) (hnewline : b ≠ newline) (hbackslash : b ≠ backslash) (rest : Bytes) :
    readQuoted (b :: rest) = (readQuoted rest).map fun r => (b :: r.1, r.2) := by
  cases rest with
  | nil => exact if_neg hquote
  | cons c rest => rw [readQuoted, if_neg hquote, if_neg hnewline, if_neg hbackslash]

theorem readQuoted_escapeByte (b : UInt8) (rest : Bytes) :
    readQuoted (escapeByte b ++ rest) = (readQuoted rest).map fun r => (b :: r.1, r.2) := by
  unfold escapeByte
  split
  · rename_i h
    rw [h]
    rfl
  split
  · rename_i h
    rw [h]
    rfl
  split
  · rename_i h
    rw [h]
    rfl
  · rename_i hbackslash hnewline hquote
    exact readQuoted_cons hquote hnewline hbackslash rest

/-- An escaped value is read back up to the quote that ends it. -/
theorem readQuoted_escape (value rest : Bytes) : readQuoted (escapeLabelValue value ++ quote :: rest) = some (value, rest) := by
  rw [escape_eq_flatMap]
  induction value with
  | nil => exact readQuoted_quote rest
  | cons b value ih =>
    rw [List.flatMap_cons, List.append_assoc, readQuoted_escapeByte, ih]
    rfl

theorem newline_notMem_escape (value : Bytes) : newline ∉ escapeLabelValue value := by
  rw [escape_eq_flatMap, List.mem_flatMap]
  rintro ⟨b, -, hb⟩
  unfold escapeByte at hb
  split at hb
  · exact absurd hb (by decide)
  split at hb
  · exact absurd hb (by decide)
  split at hb
  · exact absurd hb (by decide)
  · rename_i h _
    exact h (List.mem_singleton.1 hb).symm

/-! ## Names -/

theorem legal_of_isLabelName {name : Bytes} (h : Config.isLabelName name = true) : LegalName name := by
  unfold Config.isLabelName at h
  rw [Bool.and_eq_true, Bool.and_eq_true] at h
  obtain ⟨⟨hstart, hall⟩, -⟩ := h
  refine ⟨?_, hall⟩
  cases name with
  | nil => cases hstart
  | cons b rest => exact ⟨b, rest, rfl, hstart⟩

theorem LegalName.sanitize {name : Bytes} (h : LegalName name) : sanitizeLabelName name = name := sanitize_of_all h.2

theorem takeWhile_name {name : Bytes} (h : name.all isNameByte = true) {b : UInt8} (hb : isNameByte b = false) (rest : Bytes) :
    (name ++ b :: rest).takeWhile isNameByte = name ∧ (name ++ b :: rest).dropWhile isNameByte = b :: rest := by
  have hall := List.all_eq_true.1 h
  constructor
  · rw [List.takeWhile_append_of_pos hall, List.takeWhile_cons_of_neg (by rw [hb]; decide), List.append_nil]
  · rw [List.dropWhile_append_of_pos hall, List.dropWhile_cons_of_neg (by rw [hb]; decide)]

theorem newline_notMem_name {name : Bytes} (h : name.all isNameByte = true) : newline ∉ name := fun hm =>
  absurd (List.all_eq_true.1 h newline hm) (by decide)

theorem metric_name_all (m : Metric) : m.name.all isNameByte = true := by
  have hsuffix : (ascii m.suffix).all isNameByte = true := by cases m <;> decide
  unfold Metric.name
  rw [List.all_append, hsuffix]
  decide

/-! ## Numbers -/

theorem decimal_digits (n : Nat) : (decimal n).all isDigit = true ∧ decimal n ≠ [] := by
  constructor
  · rw [List.all_eq_true]
    intro b hb
    have hrange := decimal_range n hb
    unfold isDigit
    rw [Bool.and_eq_true, decide_eq_true_eq, decide_eq_true_eq, UInt8.le_iff_toNat_le, UInt8.le_iff_toNat_le]
    exact hrange
  · unfold decimal
    rw [ne_eq, List.map_eq_nil_iff]
    exact Nat.toDigits_ne_nil

theorem readNumber_decimal (n : Nat) : readNumber (decimal n) = some n := by
  obtain ⟨hall, hne⟩ := decimal_digits n
  unfold readNumber
  rw [if_pos ⟨hne, hall⟩]
  congr 1
  have hfold : ∀ (cs : List Char) (k : Nat), (∀ c ∈ cs, c.isDigit = true) →
      (cs.map fun c => UInt8.ofNat c.toNat).foldl (fun n b => n * 10 + (b.toNat - 48)) k = Nat.ofDigitChars 10 cs k := by
    intro cs
    induction cs with
    | nil => exact fun _ _ => rfl
    | cons c cs ih =>
      intro k hc
      have hd := hc c (List.mem_cons_self ..)
      rw [Char.isDigit, Bool.and_eq_true, decide_eq_true_eq, decide_eq_true_eq] at hd
      have hhigh : c.toNat ≤ 57 := hd.2
      rw [List.map_cons, List.foldl_cons, ih _ fun x hx => hc x (List.mem_cons_of_mem _ hx), Nat.ofDigitChars_cons,
        UInt8.toNat_ofNat', Nat.mod_eq_of_lt (show c.toNat < 2 ^ 8 by omega), Nat.mul_comm k 10]
      rfl
  unfold decimal
  rw [hfold _ 0 fun c hc => Nat.isDigit_of_mem_toDigits (by decide) (by decide) hc]
  exact Nat.ofDigitChars_ten_toDigits

/-! ## Lines -/

theorem readLabel_write {name : Bytes} (h : LegalName name) (value rest : Bytes) :
    readLabel (writeLabel (name, escapeLabelValue value) ++ rest) = some ((name, value), rest) := by
  have hs : writeLabel (name, escapeLabelValue value) ++ rest = name ++ 61 :: quote :: (escapeLabelValue value ++ quote :: rest) := by
    unfold writeLabel
    simp only [List.append_assoc, List.cons_append, List.nil_append]
  obtain ⟨htake, hdrop⟩ := takeWhile_name h.2 (b := 61) (by decide) (quote :: (escapeLabelValue value ++ quote :: rest))
  unfold readLabel
  dsimp only
  rw [hs, htake, hdrop, if_pos h]
  show (readQuoted (escapeLabelValue value ++ quote :: rest)).map _ = _
  rw [readQuoted_escape]
  rfl

/-- The labels as they are written. -/
def writtenLabels (pairs : List (Bytes × Bytes)) : List (Bytes × Bytes) := pairs.map fun p => (p.1, escapeLabelValue p.2)

theorem readLabels_join (rest : Bytes) : ∀ (pairs : List (Bytes × Bytes)), pairs ≠ [] → (∀ p ∈ pairs, LegalName p.1) → ∀ fuel ≥ pairs.length,
    readLabels fuel (joinLabels (writtenLabels pairs) ++ 125 :: rest) = some (pairs, rest)
  | [], h, _, _, _ => absurd rfl h
  | [p], _, hl, fuel, hf => by
    obtain ⟨fuel, rfl⟩ := Nat.exists_eq_succ_of_ne_zero (Nat.ne_of_gt (Nat.lt_of_lt_of_le Nat.one_pos hf))
    show (readLabel (writeLabel (p.1, escapeLabelValue p.2) ++ 125 :: rest)).bind _ = _
    rw [readLabel_write (hl p (List.mem_cons_self ..))]
    rfl
  | p :: q :: pairs, _, hl, fuel, hf => by
    obtain ⟨fuel, rfl⟩ := Nat.exists_eq_succ_of_ne_zero (Nat.ne_of_gt (Nat.lt_of_lt_of_le (Nat.succ_pos _) hf))
    have ih := readLabels_join rest (q :: pairs) (List.cons_ne_nil q pairs) (fun x hx => hl x (List.mem_cons_of_mem _ hx)) fuel
      (Nat.le_of_succ_le_succ hf)
    have hs : joinLabels (writtenLabels (p :: q :: pairs)) ++ 125 :: rest =
        writeLabel (p.1, escapeLabelValue p.2) ++ 44 :: (joinLabels (writtenLabels (q :: pairs)) ++ 125 :: rest) := by
      show (writeLabel (p.1, escapeLabelValue p.2) ++ 44 :: joinLabels (writtenLabels (q :: pairs))) ++ 125 :: rest = _
      rw [List.append_assoc, List.cons_append]
    rw [hs, readLabels, readLabel_write (hl p (List.mem_cons_self ..))]
    show (readLabels fuel (joinLabels (writtenLabels (q :: pairs)) ++ 125 :: rest)).map _ = _
    rw [ih]
    rfl

theorem length_le_join : ∀ labels : List (Bytes × Bytes), labels.length ≤ (joinLabels labels).length
  | [] => Nat.zero_le _
  | [l] => by
    show 1 ≤ (l.1 ++ 61 :: quote :: (l.2 ++ [quote])).length
    rw [List.length_append, List.length_cons]
    omega
  | l :: l' :: labels => by
    have ih := length_le_join (l' :: labels)
    show (l' :: labels).length + 1 ≤ (writeLabel l ++ 44 :: joinLabels (l' :: labels)).length
    rw [List.length_append, List.length_cons (a := 44)]
    omega

/-- A sample's line holds no line feed, its label names are legal, and it gives back what was written. -/
structure Decodes (m : Metric) (labels pairs : List (Bytes × Bytes)) (n : Nat) : Prop where
  oneLine : newline ∉ line m labels n
  legal : ∀ l ∈ labels, LegalName l.1
  read : readLine (line m labels n) = some (m.name, pairs, n)

theorem newline_notMem_writeLabel {p : Bytes × Bytes} (hp : LegalName p.1) : newline ∉ writeLabel (p.1, escapeLabelValue p.2) := by
  intro hm
  unfold writeLabel at hm
  simp only [List.mem_append, List.mem_cons, List.not_mem_nil, or_false] at hm
  rcases hm with hm | hm | hm | hm | hm
  · exact newline_notMem_name hp.2 hm
  · exact absurd hm (by decide)
  · exact absurd hm (by decide)
  · exact newline_notMem_escape p.2 hm
  · exact absurd hm (by decide)

/-- The labels of a series stay on the one line: what could break it is escaped. -/
theorem newline_notMem_join {pairs : List (Bytes × Bytes)} (hl : ∀ p ∈ pairs, LegalName p.1) :
    newline ∉ joinLabels (writtenLabels pairs) := by
  induction pairs with
  | nil => exact List.not_mem_nil
  | cons p pairs ih =>
    intro hm
    have hp := newline_notMem_writeLabel (hl p (List.mem_cons_self ..))
    have hrest := ih fun x hx => hl x (List.mem_cons_of_mem _ hx)
    cases pairs with
    | nil => exact hp hm
    | cons q pairs =>
      rcases List.mem_append.1 (show newline ∈ writeLabel (p.1, escapeLabelValue p.2) ++ 44 :: joinLabels (writtenLabels (q :: pairs)) from hm)
        with hm | hm
      · exact hp hm
      · exact (List.mem_cons.1 hm).elim (fun h => absurd h (by decide)) hrest

theorem decodes {pairs : List (Bytes × Bytes)} (hne : pairs ≠ []) (hl : ∀ p ∈ pairs, LegalName p.1) (m : Metric) (n : Nat) :
    Decodes m (labelsFromPairs pairs) pairs n := by
  have hlabels : labelsFromPairs pairs = writtenLabels pairs :=
    List.map_congr_left fun p hp => by rw [(hl p hp).sanitize]
  rw [hlabels]
  refine ⟨fun hm => ?_, fun l h => ?_, ?_⟩
  · have hdigits := (decimal_digits n).1
    unfold line at hm
    simp only [List.mem_append, List.mem_cons] at hm
    rcases hm with hm | hm | hm | hm | hm | hm
    · exact newline_notMem_name (metric_name_all m) hm
    · exact absurd hm (by decide)
    · exact newline_notMem_join hl hm
    · exact absurd hm (by decide)
    · exact absurd hm (by decide)
    · exact absurd (List.all_eq_true.1 hdigits newline hm) (by decide)
  · obtain ⟨p, hp, rfl⟩ := List.mem_map.1 h
    exact hl p hp
  · obtain ⟨htake, hdrop⟩ := takeWhile_name (metric_name_all m) (b := 123) (by decide)
      (joinLabels (writtenLabels pairs) ++ 125 :: 32 :: decimal n)
    have hfuel : pairs.length ≤ (joinLabels (writtenLabels pairs) ++ 125 :: 32 :: decimal n).length + 1 := by
      have := length_le_join (writtenLabels pairs)
      rw [writtenLabels, List.length_map] at this
      rw [List.length_append, writtenLabels]
      omega
    unfold readLine line
    rw [hdrop, htake]
    show (readLabels _ (joinLabels (writtenLabels pairs) ++ 125 :: 32 :: decimal n)).bind _ = _
    rw [readLabels_join _ pairs hne hl _ hfuel, Option.bind_some]
    show (readNumber (decimal n)).map _ = _
    rw [readNumber_decimal]
    rfl

theorem legal_builtin : ∀ k ∈ Config.builtinLabels, LegalName k := by decide

section Target

variable {name : Bytes} {s : TargetSnapshot}

theorem legal_labels (hs : Config.checkLabels name s.labels = .ok ()) (first : List (Bytes × Bytes)) {extra : List (Bytes × Bytes)}
    (hf : ∀ k ∈ first.map Prod.fst, k ∈ Config.builtinLabels) (he : ∀ p ∈ extra, p.1 ∈ Config.builtinLabels) :
    ∀ p ∈ first ++ s.labels ++ extra, LegalName p.1 := fun p hp => by
  rcases List.mem_append.1 hp with hp | hp
  · rcases List.mem_append.1 hp with hp | hp
    · exact legal_builtin _ (hf p.1 (List.mem_map_of_mem hp))
    · exact legal_of_isLabelName (labels_of_checkLabels hs p hp).1
  · exact legal_builtin _ (he p hp)

theorem decodes_node (hs : Config.checkLabels name s.labels = .ok ()) (node : NodeObservation) {extra : List (Bytes × Bytes)}
    (he : ∀ p ∈ extra, p.1 ∈ Config.builtinLabels) (m : Metric) (n : Nat) :
    Decodes m (nodeLabels s node extra) (nodePairs s node ++ s.labels ++ extra) n := by
  have hkeys : (nodePairs s node).map Prod.fst = ["target", "target_type", "path", "parent", "node", "depth"].map ascii := rfl
  exact decodes (List.cons_ne_nil _ _) (legal_labels hs (nodePairs s node) (by rw [hkeys]; decide) he) m n

/-- Whatever the values of the labels, the lines of a node's and a target's samples decode to what was
encoded. -/
theorem line_decodes (hs : Config.checkLabels name s.labels = .ok ()) :
    (∀ (node : NodeObservation) (extra : List (Bytes × Bytes)), (∀ p ∈ extra, p.1 ∈ Config.builtinLabels) → ∀ m n,
      Decodes m (nodeLabels s node extra) (nodePairs s node ++ s.labels ++ extra) n) ∧
    (∀ (path : Bytes) (extra : List (Bytes × Bytes)), (∀ p ∈ extra, p.1 ∈ Config.builtinLabels) → ∀ m n,
      Decodes m (labelsAt s path extra) (targetPairs s path ++ s.labels ++ extra) n) ∧
    ∀ (node : NodeObservation) (backend : Bytes), ∀ x ∈ writeNodeSizes s backend node, ∃ mode ∈ s.sizeModes, ∃ n, x.value = .count n ∧
      Decodes x.metric x.labels
        (nodePairs s node ++ s.labels ++ [pair "size_mode" (ascii (sizeModeName mode)), pair "backend" backend]) n := by
  refine ⟨fun node extra he m n => decodes_node hs node he m n, fun path extra he m n => ?_, fun node backend x hx => ?_⟩
  · have hkeys : (targetPairs s path).map Prod.fst = ["target", "target_type", "path"].map ascii := rfl
    exact decodes (List.cons_ne_nil _ _) (legal_labels hs (targetPairs s path) (by rw [hkeys]; decide) he) m n
  · obtain ⟨mode, hmode, hx⟩ := List.mem_flatMap.1 hx
    obtain ⟨v, hv, rfl⟩ := List.mem_map.1 hx
    have hextra : ∀ p ∈ [pair "size_mode" (ascii (sizeModeName mode)), pair "backend" backend], p.1 ∈ Config.builtinLabels := by
      intro p hp
      have hkeys : ∀ k ∈ [ascii "size_mode", ascii "backend"], k ∈ Config.builtinLabels := by decide
      exact hkeys p.1 (List.mem_map_of_mem (f := Prod.fst) hp)
    have hcount : ∃ n, v.2 = .count n := by
      rcases List.mem_cons.1 hv with rfl | hv
      · exact ⟨_, rfl⟩
      · rw [List.mem_singleton.1 hv]
        exact ⟨_, rfl⟩
    obtain ⟨n, hn⟩ := hcount
    exact ⟨mode, hmode, n, hn, decodes_node hs node hextra v.1 n⟩

end Target

/-- A target of one label, whose value is a quote, a line feed and a backslash. -/
def quotedSnapshot : TargetSnapshot where
  targetName := [100]
  targetType := [120]
  path := [slash, 100]
  labels := [(ascii "tier", [quote, newline, backslash])]
  sizeModes := [.blocks]
  interval := 1

theorem line_decodes_quoted : Decodes .blockRead (labelsAt quotedSnapshot [slash, backslash, 110] [])
    (targetPairs quotedSnapshot [slash, backslash, 110] ++ [(ascii "tier", [quote, newline, backslash])] ++ []) 7 :=
  (line_decodes (show Config.checkLabels [100] quotedSnapshot.labels = .ok () from by decide)).2.1 [slash, backslash, 110] []
    (fun _ h => absurd h List.not_mem_nil) .blockRead 7

end StorageHarvester.Exporter
