import SylarNet.HexText
import SylarNet.SylarAddress
import SylarNet.UriAddresses

/-!
# The text of an IPv6 address

`IPv6Address::insert` leaves out every group that is zero and writes `::` for the first run of
them. What a text denotes is said of the addresses of the grammar for URIs.
-/
namespace Ipv6Text

open HostWords SylarEndian SylarAddress UriComponents UriAddresses
open DecimalText (decimal value_decimal isDigit_of_mem_decimal)
open HexText (hex hex_ne_nil length_hex_le exists_digit_of_mem value_hex)

section Loop

variable (order : ByteOrder)

def word (a : SockaddrIn6) : List UInt16 :=
  (List.range 8).map fun i => readShort order a.addr.1 (2 * i)

def piece (w : UInt16) : List UInt8 := hex (networkShort order w).toNat

/-- What the loop writes from a group on, with the group in front of it, and `used_zeros` when it
is done. -/
def insertLoop : Option UInt16 → Bool → List UInt16 → List UInt8 × Bool
  | _, used, [] => ([], used)
  | before, used, w :: ws =>
    if w = 0 then insertLoop (some w) used ws
    else
      let gap := decide (before = some 0) && !used
      let rest := insertLoop (some w) (used || gap) ws
      ((if gap then [58] else []) ++ (if before.isSome then [58] else []) ++ piece order w ++
        rest.1, rest.2)

/-- What is written between the brackets. -/
def between (ws : List UInt16) : List UInt8 :=
  let loop := insertLoop order none false ws
  loop.1 ++ if !loop.2 && ws.getD 7 0 = 0 then [58, 58] else []

def insert (a : SockaddrIn6) : List UInt8 :=
  [91] ++ between order (word order a) ++ [93, 58] ++ decimal (networkShort order a.port).toNat

end Loop

section Denoted

def pair (d : Dotted) : List ℕ :=
  [256 * d.first.toNat + d.second.toNat, 256 * d.third.toNat + d.fourth.toNat]

def groupValue (g : Group) : ℕ := HexText.value g.text

def tailValue (x : Ipv6) : List ℕ := x.after.map groupValue ++ x.dotted.elim [] pair

/-- The eight groups of an address in the notation. -/
def groupValues (x : Ipv6) : List ℕ :=
  match x.before with
  | none => tailValue x
  | some gs => gs.map groupValue ++ List.replicate (8 - (gs.length + x.weight)) 0 ++ tailValue x

def Denotes (t : List UInt8) (g : List ℕ) : Prop := ∃ x : Ipv6, x.text = t ∧ groupValues x = g

/-- The groups of an address in memory. -/
def groups (a : SockaddrIn6) : List ℕ := (List.range 8).map fun i =>
  256 * (a.addr.1.getD (2 * i) 0).toNat + (a.addr.1.getD (2 * i + 1) 0).toNat

/-- There is at most one run of zeros. -/
def Contiguous (g : List ℕ) : Prop :=
  ∃ front n back, g = front ++ List.replicate n 0 ++ back ∧ 0 ∉ front ∧ 0 ∉ back

/-- All zeros where the first one is. -/
def gathered : List ℕ → List ℕ
  | [] => []
  | v :: vs =>
    if v = 0 then List.replicate (vs.count 0 + 1) 0 ++ vs.filter (· ≠ 0) else v :: gathered vs

end Denoted

section Unique

variable {x y : Ipv6}

theorem octet_injective {m n : UInt8} (h : octet m = octet n) : m = n := by
  apply UInt8.toNat_inj.1
  rw [← value_decimal m.toNat, ← value_decimal n.toNat]
  exact congrArg DecimalText.value h

theorem dotted_injective {d e : Dotted} (h : d.text = e.text) : d = e := by
  rw [dotted_text, dotted_text] at h
  have hsplit := congrArg (List.splitOn 46) h
  rw [dots, dots, List.splitOn_intercalate 46 (by simp [octet_no_dot]) (List.cons_ne_nil _ _),
    List.splitOn_intercalate 46 (by simp [octet_no_dot]) (List.cons_ne_nil _ _)] at hsplit
  simp only [List.cons.injEq, and_true] at hsplit
  obtain ⟨hfirst, hsecond, hthird, hfourth⟩ := hsplit
  cases d
  cases e
  simp only [Dotted.mk.injEq]
  exact ⟨octet_injective hfirst, octet_injective hsecond, octet_injective hthird,
    octet_injective hfourth⟩

theorem map_groupValue (gs : List Group) :
    gs.map groupValue = (gs.map (·.text)).map HexText.value := by
  rw [List.map_map]
  rfl

/-- The pieces behind the `::`, or all of them, have the values. -/
theorem tailValue_unique (h : UriAddresses.groups x ++ (address x).toList =
    UriAddresses.groups y ++ (address y).toList) :
    tailValue x = tailValue y ∧ x.weight = y.weight := by
  obtain ⟨hgroups, haddress⟩ := append_address_unique
    (fun g hg => (groups_isGroup x g hg).no_dot) (fun g hg => (groups_isGroup y g hg).no_dot)
    (address_dot x) (address_dot y) h
  have hdotted : x.dotted = y.dotted :=
    Option.map_injective (fun _ _ => dotted_injective) haddress
  refine ⟨?_, ?_⟩
  · rw [tailValue, tailValue, map_groupValue, map_groupValue, hdotted]
    exact congrArg (fun t => t.map HexText.value ++ y.dotted.elim [] pair) hgroups
  · rw [← tail_worth, ← tail_worth, hgroups, haddress]

theorem isPiece_text (gs : List Group) : ∀ p ∈ gs.map (·.text), IsPiece p := by
  intro p hp
  obtain ⟨g, -, rfl⟩ := List.mem_map.1 hp
  exact (group_mem g).isPiece

theorem pieces_ne_nil_of_before (h : x.before = none) :
    UriAddresses.groups x ++ (address x).toList ≠ [] := by
  have hfits := x.fits
  rw [h] at hfits
  exact pieces_ne_nil ((tail_worth x).trans hfits) (by decide)

/-- A text denotes one address. -/
theorem groupValues_unique (h : x.text = y.text) : groupValues x = groupValues y := by
  have hx : x.tail = colons (UriAddresses.groups x ++ (address x).toList) := rfl
  have hy : y.tail = colons (UriAddresses.groups y ++ (address y).toList) := rfl
  cases hbx : x.before with
  | none =>
    cases hby : y.before with
    | none =>
      simp only [Ipv6.text, hbx, hby, hx, hy] at h
      have hpieces := colons_injective (fun p hp => (tail_isPiece x p hp).no_colon)
        (fun p hp => (tail_isPiece y p hp).no_colon) (pieces_ne_nil_of_before hbx)
        (pieces_ne_nil_of_before hby) h
      simp only [groupValues, hbx, hby, (tailValue_unique hpieces).1]
    | some gs =>
      simp only [Ipv6.text, hbx, hby, hx, hy] at h
      exact absurd h (full_ne_elided (tail_isPiece x) (pieces_ne_nil_of_before hbx)
        (isPiece_text gs) (tail_isPiece y))
  | some fs =>
    cases hby : y.before with
    | none =>
      simp only [Ipv6.text, hbx, hby, hx, hy] at h
      exact absurd h.symm (full_ne_elided (tail_isPiece y) (pieces_ne_nil_of_before hby)
        (isPiece_text fs) (tail_isPiece x))
    | some gs =>
      simp only [Ipv6.text, hbx, hby, hx, hy] at h
      obtain ⟨hbefore, hpieces⟩ := elided_unique (isPiece_text fs) (tail_isPiece x)
        (isPiece_text gs) (tail_isPiece y) h
      obtain ⟨htail, hweight⟩ := tailValue_unique hpieces
      have hlength : fs.length = gs.length := by simpa using congrArg List.length hbefore
      simp only [groupValues, hbx, hby, htail, hweight, hlength, map_groupValue, hbefore]

end Unique

section Gathered

variable {g : List ℕ}

theorem gathered_of_not_mem (h : 0 ∉ g) : gathered g = g := by
  induction g with
  | nil => rfl
  | cons v vs ih =>
    rw [List.mem_cons, not_or] at h
    rw [gathered, if_neg (Ne.symm h.1), ih h.2]

theorem gathered_append {front : List ℕ} (h : 0 ∉ front) (g : List ℕ) :
    gathered (front ++ g) = front ++ gathered g := by
  induction front with
  | nil => rfl
  | cons v vs ih =>
    rw [List.mem_cons, not_or] at h
    rw [List.cons_append, gathered, if_neg (Ne.symm h.1), ih h.2, List.cons_append]

theorem gathered_run {back : List ℕ} (h : 0 ∉ back) (n : ℕ) :
    gathered (List.replicate n 0 ++ back) = List.replicate n 0 ++ back := by
  cases n with
  | zero => exact gathered_of_not_mem h
  | succ n =>
    have hfilter : back.filter (· ≠ 0) = back := by
      rw [List.filter_eq_self]
      intro v hv
      simpa using ne_of_mem_of_not_mem hv h
    rw [List.replicate_succ, List.cons_append, gathered, if_pos rfl, List.filter_append,
      hfilter, List.count_append, List.count_eq_zero_of_not_mem h]
    simp [List.replicate_succ]

theorem count_add_length_filter (g : List ℕ) :
    g.count 0 + (g.filter (· ≠ 0)).length = g.length := by
  induction g with
  | nil => rfl
  | cons v vs ih =>
    by_cases hv : v = 0 <;> simp [hv] at ih ⊢ <;> omega

theorem contiguous_gathered (g : List ℕ) : Contiguous (gathered g) := by
  induction g with
  | nil => exact ⟨[], 0, [], rfl, List.not_mem_nil, List.not_mem_nil⟩
  | cons v vs ih =>
    unfold gathered
    split_ifs with hv
    · refine ⟨[], vs.count 0 + 1, vs.filter (· ≠ 0), rfl, List.not_mem_nil, ?_⟩
      simp
    · obtain ⟨front, n, back, heq, hfront, hback⟩ := ih
      refine ⟨v :: front, n, back, ?_, ?_, hback⟩
      · rw [heq]
        rfl
      · simpa [hfront] using Ne.symm hv

theorem gathered_eq_iff : gathered g = g ↔ Contiguous g := by
  constructor
  · intro h
    rw [← h]
    exact contiguous_gathered g
  · rintro ⟨front, n, back, rfl, hfront, hback⟩
    rw [List.append_assoc, gathered_append hfront, gathered_run hback]

end Gathered

section Written

variable (order : ByteOrder) {w : UInt16} {ws front : List UInt16}

/-- Words behind one that is written. -/
def behind (ws : List UInt16) : List UInt8 := ws.flatMap fun w => 58 :: piece order w

theorem colons_piece (w : UInt16) (ws : List UInt16) :
    colons ((w :: ws).map (piece order)) = piece order w ++ behind order ws := by
  induction ws generalizing w with
  | nil => simp [colons, behind]
  | cons v ws ih =>
    rw [List.map_cons, List.map_cons, colons_cons (List.cons_ne_nil _ _), ← List.map_cons, ih]
    rfl

/-- Once a run has been written the others are lost. -/
theorem insertLoop_used (before : UInt16) (ws : List UInt16) :
    insertLoop order (some before) true ws = (behind order (ws.filter (· ≠ 0)), true) := by
  induction ws generalizing before with
  | nil => rfl
  | cons w ws ih =>
    by_cases hw : w = 0
    · simp [insertLoop, hw, ih]
    · simp [insertLoop, hw, ih, behind]

/-- The first run, behind its first zero. -/
theorem insertLoop_run (ws : List UInt16) : insertLoop order (some 0) false ws =
    if ws.filter (· ≠ 0) = [] then ([], false)
    else (58 :: behind order (ws.filter (· ≠ 0)), true) := by
  induction ws with
  | nil => rfl
  | cons w ws ih =>
    by_cases hw : w = 0
    · simp [insertLoop, hw, ih]
    · simp [insertLoop, hw, insertLoop_used, behind]

theorem insertLoop_words (hfront : 0 ∉ front) (before : UInt16) (h : before ≠ 0)
    (ws : List UInt16) (r : List UInt8 × Bool)
    (hr : ∀ v, v ≠ 0 → insertLoop order (some v) false ws = r) :
    insertLoop order (some before) false (front ++ ws) = (behind order front ++ r.1, r.2) := by
  induction front generalizing before with
  | nil => simp [hr before h, behind]
  | cons w front ih =>
    rw [List.mem_cons, not_or] at hfront
    simp [insertLoop, h, Ne.symm hfront.1, ih hfront.2 w (Ne.symm hfront.1), behind]

theorem insertLoop_first (hfront : 0 ∉ front) (ws : List UInt16) (r : List UInt8 × Bool)
    (hr : ∀ before, before ≠ some 0 → insertLoop order before false ws = r) :
    insertLoop order none false (front ++ ws) =
      (colons (front.map (piece order)) ++ r.1, r.2) := by
  cases front with
  | nil => simp [hr none, colons]
  | cons w front =>
    rw [List.mem_cons, not_or] at hfront
    have hwords := insertLoop_words order hfront.2 w (Ne.symm hfront.1) ws r fun v hv =>
      hr (some v) (by simpa using hv)
    rw [colons_piece]
    simp [insertLoop, Ne.symm hfront.1, hwords]

end Written

section Value

variable {order : ByteOrder} {a b : SockaddrIn6}

def number (order : ByteOrder) (w : UInt16) : ℕ := (networkShort order w).toNat

theorem number_eq_zero (w : UInt16) : number order w = 0 ↔ w = 0 := by
  have hzero : networkShort order 0 = 0 := by cases order <;> rfl
  constructor
  · intro h
    have heq : networkShort order w = networkShort order 0 := by
      rw [hzero]
      exact UInt16.toNat_inj.1 h
    exact networkShort_injective heq
  · rintro rfl
    rw [number, hzero]
    rfl

/-- The group that is written for a word. -/
def writtenGroup (order : ByteOrder) (w : UInt16) : Group where
  text := piece order w
  not_nil := hex_ne_nil _
  short := length_hex_le (by decide) (networkShort order w).toNat_lt
  hex := by
    have hxdigit : ∀ d < 16, Http11Grammar.xdigit (HexText.digit d) = true := by decide
    intro c hc
    obtain ⟨d, hd, rfl⟩ := exists_digit_of_mem hc
    exact hxdigit d hd

theorem groupValue_written (w : UInt16) : groupValue (writtenGroup order w) = number order w :=
  value_hex _

theorem length_word (order : ByteOrder) (a : SockaddrIn6) : (word order a).length = 8 := by
  simp [word]

theorem groups_eq (order : ByteOrder) (a : SockaddrIn6) :
    groups a = (word order a).map (number order) := by
  rw [groups, word, List.map_map]
  apply List.map_congr_left
  intro i hi
  rw [List.mem_range] at hi
  have hlength := a.addr.2
  have hpair : (a.addr.1.drop (2 * i)).take 2 =
      [a.addr.1.getD (2 * i) 0, a.addr.1.getD (2 * i + 1) 0] := by
    have hfirst : 2 * i < a.addr.1.length := by omega
    have hsecond : 2 * i + 1 < a.addr.1.length := by omega
    rw [List.drop_eq_getElem_cons hfirst, List.drop_eq_getElem_cons hsecond,
      List.take_succ_cons, List.take_succ_cons, List.take_zero]
    simp [hfirst, hsecond]
  have hload := byteswapOnLittleEndian_load order ((a.addr.1.drop (2 * i)).take 2)
  rw [hpair] at hload
  have hlt := load_lt order [a.addr.1.getD (2 * i) 0, a.addr.1.getD (2 * i + 1) 0]
  rw [show [a.addr.1.getD (2 * i) 0, a.addr.1.getD (2 * i + 1) 0].length = 2 from rfl] at hload hlt
  have hshort : (readShort order a.addr.1 (2 * i)).toNat =
      load order [a.addr.1.getD (2 * i) 0, a.addr.1.getD (2 * i + 1) 0] := by
    rw [readShort, hpair, UInt16.toNat_ofNat']
    exact Nat.mod_eq_of_lt hlt
  rw [Function.comp_apply, number, toNat_networkShort, hshort]
  refine Eq.trans ?_ hload.symm
  simp [ofLittle, Nat.add_comm]

theorem getD_zeros {ws : List UInt16} (h : ∀ w ∈ ws, w = 0) (i : ℕ) : ws.getD i 0 = 0 := by
  rw [List.getD_eq_getElem?_getD]
  cases hw : ws[i]? with
  | none => rfl
  | some w => exact h w (List.mem_of_getElem? hw)

/-- The first run with what is behind it. -/
theorem written_run (order : ByteOrder) {front ws : List UInt16} (h : front.length ≤ 7) :
    (insertLoop order (some 0) false ws).1 ++
      (if !(insertLoop order (some 0) false ws).2 && (front ++ 0 :: ws).getD 7 0 = 0
        then [58, 58] else []) = 58 :: 58 :: colons ((ws.filter (· ≠ 0)).map (piece order)) := by
  rw [insertLoop_run]
  cases hfilter : ws.filter (· ≠ 0) with
  | nil =>
    have hzeros : ∀ w ∈ 0 :: ws, w = 0 := by simpa using hfilter
    have hlast : (front ++ 0 :: ws).getD 7 0 = 0 := by
      rw [List.getD_eq_getElem?_getD, List.getElem?_append_right h, ← List.getD_eq_getElem?_getD]
      exact getD_zeros hzeros _
    simp only [hlast]
    rfl
  | cons v vs =>
    rw [colons_piece]
    simp [behind]

theorem texts_written (order : ByteOrder) (vs : List UInt16) :
    (vs.map (writtenGroup order)).map (·.text) = vs.map (piece order) := by
  rw [List.map_map]
  rfl

theorem values_written (order : ByteOrder) (vs : List UInt16) :
    (vs.map (writtenGroup order)).map groupValue = vs.map (number order) := by
  rw [List.map_map]
  exact List.map_congr_left fun w _ => groupValue_written w

theorem zero_not_mem_numbers {order : ByteOrder} {vs : List UInt16} (h : 0 ∉ vs) :
    0 ∉ vs.map (number order) := by
  simpa [number_eq_zero] using h

theorem between_of_zero (order : ByteOrder) {front back : List UInt16} (hfront : 0 ∉ front)
    (hlength : (front ++ 0 :: back).length = 8) : ∃ x : Ipv6,
    between order (front ++ 0 :: back) = x.text ∧
      groupValues x = gathered ((front ++ 0 :: back).map (number order)) := by
  have hle := List.length_filter_le (· ≠ 0) back
  simp only [List.length_append, List.length_cons] at hlength
  let x : Ipv6 := ⟨some (front.map (writtenGroup order)),
    (back.filter (· ≠ 0)).map (writtenGroup order), none, by
      simp only [List.length_map, Option.toList_none, List.length_nil]
      omega⟩
  refine ⟨x, ?_, ?_⟩
  · have hloop := insertLoop_first order hfront (0 :: back)
      (insertLoop order (some 0) false back) fun before h => by simp [insertLoop]
    rw [between, hloop, List.append_assoc, written_run order (by omega)]
    simp only [Ipv6.text, Ipv6.tail, x, texts_written]
    simp
  · have hfilter : (back.map (number order)).filter (· ≠ 0) =
        (back.filter (· ≠ 0)).map (number order) := by
      rw [List.filter_map]
      simp [Function.comp_def, number_eq_zero]
    have hcount : 8 - (front.length + (back.filter (· ≠ 0)).length) =
        (back.map (number order)).count 0 + 1 := by
      have hsplit := count_add_length_filter (back.map (number order))
      rw [hfilter, List.length_map, List.length_map] at hsplit
      omega
    rw [List.map_append, gathered_append (zero_not_mem_numbers hfront), List.map_cons, gathered,
      if_pos ((number_eq_zero 0).2 rfl), hfilter, ← hcount]
    simp only [groupValues, tailValue, x, values_written]
    simp [Ipv6.weight]

theorem between_of_not_mem (order : ByteOrder) {ws : List UInt16} (hzero : 0 ∉ ws)
    (hlength : ws.length = 8) : ∃ x : Ipv6,
    between order ws = x.text ∧ groupValues x = gathered (ws.map (number order)) := by
  let x : Ipv6 := ⟨none, ws.map (writtenGroup order), none, by simp [hlength]⟩
  refine ⟨x, ?_, ?_⟩
  · have hloop := insertLoop_first order hzero [] ([], false) fun _ _ => rfl
    have hlast : ws.getD 7 0 ≠ 0 := by
      intro h
      apply hzero
      rw [List.getD_eq_getElem?_getD, List.getElem?_eq_getElem (show 7 < ws.length by omega),
        Option.getD_some] at h
      exact h ▸ List.getElem_mem _
    rw [List.append_nil] at hloop
    simp only [between, hloop, hlast, Ipv6.text, Ipv6.tail, x, texts_written]
    simp
  · rw [gathered_of_not_mem (zero_not_mem_numbers hzero)]
    simp only [groupValues, tailValue, x, values_written]
    simp

/-- The text between the brackets is one of an address, in which all zeros are where the first of
them is in memory. -/
theorem between_eq (order : ByteOrder) {ws : List UInt16} (hlength : ws.length = 8) : ∃ x : Ipv6,
    between order ws = x.text ∧ groupValues x = gathered (ws.map (number order)) := by
  by_cases hzero : 0 ∈ ws
  · obtain ⟨front, back, rfl, hfront⟩ := List.eq_append_cons_of_mem hzero
    exact between_of_zero order hfront hlength
  · exact between_of_not_mem order hzero hlength

end Value

section Right

variable {order : ByteOrder} {a b : SockaddrIn6}

/-- The text is that of the address, with its port behind it. -/
def TextRight (order : ByteOrder) (a : SockaddrIn6) : Prop := ∃ t,
  insert order a = [91] ++ t ++ [93, 58] ++ decimal (networkShort order a.port).toNat ∧
  Denotes t (groups a)

theorem between_denotes (order : ByteOrder) (a : SockaddrIn6) :
    Denotes (between order (word order a)) (gathered (groups a)) := by
  obtain ⟨x, htext, hvalues⟩ := between_eq order (length_word order a)
  refine ⟨x, htext.symm, ?_⟩
  rw [hvalues, groups_eq order]

theorem denotes_unique {t : List UInt8} {g g' : List ℕ} (h : Denotes t g) (h' : Denotes t g') :
    g = g' := by
  obtain ⟨x, hx, rfl⟩ := h
  obtain ⟨y, hy, rfl⟩ := h'
  exact groupValues_unique (hx.trans hy.symm)

theorem textRight_iff : TextRight order a ↔ Contiguous (groups a) := by
  rw [← gathered_eq_iff]
  constructor
  · rintro ⟨t, hinsert, ht⟩
    simp only [insert, List.append_cancel_left_eq, List.append_cancel_right_eq] at hinsert
    exact denotes_unique (between_denotes order a) (hinsert ▸ ht)
  · intro h
    refine ⟨between order (word order a), rfl, ?_⟩
    have hdenotes := between_denotes order a
    rwa [h] at hdenotes

/-- The memory of an address has its groups. -/
theorem addr_of_groups (h : groups a = groups b) : a.addr = b.addr := by
  have hpairs : ∀ i < 8, a.addr.1.getD (2 * i) 0 = b.addr.1.getD (2 * i) 0 ∧
      a.addr.1.getD (2 * i + 1) 0 = b.addr.1.getD (2 * i + 1) 0 := by
    intro i hi
    have heq := List.map_inj_left.1 h i (List.mem_range.2 hi)
    have hlow := (a.addr.1.getD (2 * i + 1) 0).toNat_lt
    have hlow' := (b.addr.1.getD (2 * i + 1) 0).toNat_lt
    constructor <;> apply UInt8.toNat_inj.1 <;> omega
  have hla := a.addr.2
  have hlb := b.addr.2
  apply Subtype.ext
  apply List.ext_getElem (hla.trans hlb.symm)
  intro j hj hj'
  have hbyte : a.addr.1.getD j 0 = b.addr.1.getD j 0 := by
    obtain ⟨i, rfl | rfl⟩ := Nat.even_or_odd' j
    · exact (hpairs i (by omega)).1
    · exact (hpairs i (by omega)).2
  simpa [hj, hj'] using hbyte

theorem no_bracket_piece (w : UInt16) : 93 ∉ piece order w := by
  intro h
  obtain ⟨d, hd, heq⟩ := exists_digit_of_mem h
  have hdigits : ∀ d < 16, HexText.digit d ≠ 93 := by decide
  exact hdigits d hd heq.symm

theorem no_bracket_insertLoop (ws : List UInt16) (before : Option UInt16) (used : Bool) :
    93 ∉ (insertLoop order before used ws).1 := by
  induction ws generalizing before used with
  | nil => exact List.not_mem_nil
  | cons w ws ih =>
    by_cases hw : w = 0
    · rw [insertLoop, if_pos hw]
      exact ih _ _
    · rw [insertLoop, if_neg hw]
      simp only [List.mem_append, not_or]
      refine ⟨⟨⟨?_, ?_⟩, no_bracket_piece w⟩, ih _ _⟩ <;> split <;> simp

theorem no_bracket_between (ws : List UInt16) : 93 ∉ between order ws := by
  simp only [between, List.mem_append, not_or]
  refine ⟨no_bracket_insertLoop ws none false, ?_⟩
  split_ifs <;> simp

theorem insert_injective (ha : Contiguous (groups a)) (hb : Contiguous (groups b))
    (h : insert order a = insert order b) : a.addr = b.addr ∧ a.port = b.port := by
  simp only [insert, List.append_assoc, List.cons_append, List.nil_append, List.cons.injEq,
    true_and] at h
  obtain ⟨hbetween, hport⟩ := append_cons_unique (no_bracket_between _) (no_bracket_between _) h
  constructor
  · have hda := between_denotes order a
    have hdb := between_denotes order b
    rw [gathered_eq_iff.2 ha] at hda
    rw [gathered_eq_iff.2 hb, ← hbetween] at hdb
    exact addr_of_groups (denotes_unique hda hdb)
  · have hvalue := congrArg DecimalText.value (List.cons.inj hport).2
    rw [value_decimal, value_decimal] at hvalue
    exact networkShort_injective (UInt16.toNat_inj.1 hvalue)

/-- The text is right for the addresses with one run of zeros at most, and these can be told from
one another by it. -/
theorem ipv6_text_iff (order : ByteOrder) (a : SockaddrIn6) :
    (TextRight order a ↔ Contiguous (groups a)) ∧
    ∀ b, Contiguous (groups a) → Contiguous (groups b) → insert order a = insert order b →
      a.addr = b.addr ∧ a.port = b.port :=
  ⟨textRight_iff, fun _ => insert_injective⟩

/-- `1:0:2:0:3:4:5:6` is written as `1::2:3:4:5:6`. -/
theorem second_run_lost : ¬ ∀ order a, TextRight order a := by
  intro h
  have hright := h .big ⟨AF_INET6, 0, 0, ⟨[0, 1, 0, 0, 0, 2, 0, 0, 0, 3, 0, 4, 0, 5, 0, 6],
    rfl⟩, 0⟩
  rw [textRight_iff, ← gathered_eq_iff] at hright
  exact absurd hright (by decide)

end Right

end Ipv6Text
