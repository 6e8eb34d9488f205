import Jvm.Proofs.Strings
/-!
# Modified UTF-8 read back

Every text has one encoding, and what is decoded from it is the text itself, with its surrogate pairs joined:
`decode?_encode`.  The other way round, bytes that decode need not be the encoding of what they decode to, for standard
UTF-8 is accepted as well.  The two differ in the null character and in supplementary code points, and so in bytes that
the modified form never has: `encode_eq_iff`.
-/
namespace Jvm

/-! ## Scanning -/

namespace Utf8

/-- Taken one by one off the front of the bytes, these are all code points. -/
inductive Scans (next? : Bytes → Option (CodePoint × Bytes)) : Bytes → Text → Prop
  | nil : Scans next? [] []
  | cons {bs rest : Bytes} {c : CodePoint} {t : Text} (head : next? bs = some (c, rest)) (tail : Scans next? rest t) :
    Scans next? bs (c :: t)

theorem scans_of_scan {next? : Bytes → Option (CodePoint × Bytes)} : ∀ {fuel : Nat} {bs : Bytes} {seen t : Text},
    scan next? fuel bs seen = some t → ∃ new, t = seen.reverse ++ new ∧ Scans next? bs new
  | _, [], seen, t, h => by
    rw [scan] at h
    cases h
    exact ⟨[], (List.append_nil _).symm, .nil⟩
  | 0, _ :: _, _, _, h => nomatch h
  | fuel + 1, b :: bs, seen, t, h => by
    rw [scan] at h
    cases hnext : next? (b :: bs) with
    | none =>
      rw [hnext] at h
      cases h
    | some r =>
      obtain ⟨c, rest⟩ := r
      rw [hnext] at h
      obtain ⟨new, rfl, hnew⟩ := scans_of_scan h
      exact ⟨c :: new, by simp, .cons hnext hnew⟩

/-- A decoder that always consumes something scans with as much fuel as there are bytes. -/
theorem scan_of_scans {next? : Bytes → Option (CodePoint × Bytes)} (hnil : next? [] = none)
    (hless : ∀ bs c rest, next? bs = some (c, rest) → rest.length < bs.length) {bs : Bytes} {t : Text}
    (h : Scans next? bs t) :
    ∀ {fuel : Nat} {seen : Text}, bs.length ≤ fuel → scan next? fuel bs seen = some (seen.reverse ++ t) := by
  induction h with
  | nil =>
    intro fuel seen _
    rw [scan, List.append_nil]
  | @cons bs rest c t head tail ih =>
    intro fuel seen hfuel
    have hrest := hless bs c rest head
    cases bs with
    | nil =>
      rw [hnil] at head
      cases head
    | cons b bs =>
      cases fuel with
      | zero => simp at hfuel
      | succ fuel =>
        rw [scan, head]
        have hlength : rest.length ≤ fuel := by simp only [List.length_cons] at hrest hfuel; omega
        simp only [ih hlength, List.reverse_cons, List.append_assoc, List.singleton_append]

end Utf8

/-! ## Surrogate pairs -/

namespace CodePoint

theorem isSurrogate_eq_false {c : CodePoint} : c.isSurrogate = false ↔ c.val < 0xD800 ∨ 0xE000 ≤ c.val := by
  rw [isSurrogate, Bool.and_eq_false_iff, decide_eq_false_iff_not, decide_eq_false_iff_not, Nat.not_le, Nat.not_lt]

theorem isHigh_iff {c : CodePoint} : c.isHigh = true ↔ 0xD800 ≤ c.val ∧ c.val < 0xDC00 := by
  simp [isHigh]

theorem isHigh_eq_false {c : CodePoint} : c.isHigh = false ↔ c.val < 0xD800 ∨ 0xDC00 ≤ c.val := by
  rw [isHigh, Bool.and_eq_false_iff, decide_eq_false_iff_not, decide_eq_false_iff_not, Nat.not_le, Nat.not_lt]

theorem isLow_iff {c : CodePoint} : c.isLow = true ↔ 0xDC00 ≤ c.val ∧ c.val < 0xE000 := by
  simp [isLow]

theorem val_ofPair {c d : CodePoint} (hc : c.isHigh = true) (hd : d.isLow = true) :
    (ofPair c d).val = 0x10000 + (c.val - 0xD800) * 0x400 + (d.val - 0xDC00) := by
  rw [isHigh_iff] at hc
  rw [isLow_iff] at hd
  exact val_ofNat (by omega)

theorem highHalf_ofPair {c d : CodePoint} (hc : c.isHigh = true) (hd : d.isLow = true) : (ofPair c d).highHalf = c := by
  refine Fin.ext ?_
  rw [highHalf, val_ofPair hc hd]
  rw [isHigh_iff] at hc
  rw [isLow_iff] at hd
  rw [val_ofNat (by omega)]
  omega

theorem lowHalf_ofPair {c d : CodePoint} (hc : c.isHigh = true) (hd : d.isLow = true) : (ofPair c d).lowHalf = d := by
  refine Fin.ext ?_
  rw [lowHalf, val_ofPair hc hd]
  rw [isHigh_iff] at hc
  rw [isLow_iff] at hd
  rw [val_ofNat (by omega)]
  omega

theorem isHigh_highHalf (c : CodePoint) : c.highHalf.isHigh = true := by
  have hc := c.isLt
  rw [isHigh_iff, highHalf, val_ofNat (by omega)]
  omega

theorem isLow_lowHalf (c : CodePoint) : c.lowHalf.isLow = true := by
  have hc := c.isLt
  rw [isLow_iff, lowHalf, val_ofNat (by omega)]
  omega

theorem ofPair_halves {c : CodePoint} (h : 0x10000 ≤ c.val) : ofPair c.highHalf c.lowHalf = c := by
  have hc := c.isLt
  refine Fin.ext ?_
  rw [val_ofPair (isHigh_highHalf c) (isLow_lowHalf c), highHalf, lowHalf, val_ofNat (by omega), val_ofNat (by omega)]
  omega

end CodePoint

namespace Text

open CodePoint

theorem joinSurrogates_cons (c : CodePoint) (t : Text) : joinSurrogates (c :: t) = attach c (joinSurrogates t) := rfl

theorem attach_of_not_high {c : CodePoint} (h : c.isHigh = false) (t : Text) : attach c t = c :: t := by
  cases t with
  | nil => rfl
  | cons d t => rw [attach, h, Bool.false_and, if_neg Bool.false_ne_true]

/-- The UTF-16 code units of a text: a supplementary code point as its two surrogates. -/
def units (t : Text) : Text := t.flatMap fun c => if c.val < 0x10000 then [c] else [c.highHalf, c.lowHalf]

theorem val_lt_of_mem_units {t : Text} {c : CodePoint} (hc : c ∈ units t) : c.val < 0x10000 := by
  obtain ⟨d, -, hd⟩ := List.mem_flatMap.1 hc
  by_cases hlt : d.val < 0x10000
  · rw [if_pos hlt] at hd
    obtain rfl := List.mem_singleton.1 hd
    exact hlt
  · rw [if_neg hlt] at hd
    have hhigh := isHigh_iff.1 d.isHigh_highHalf
    have hlow := isLow_iff.1 d.isLow_lowHalf
    simp only [List.mem_cons, List.not_mem_nil, or_false] at hd
    rcases hd with rfl | rfl <;> omega

theorem units_cons_supplementary {c : CodePoint} (h : 0x10000 ≤ c.val) (t : Text) :
    units (c :: t) = c.highHalf :: c.lowHalf :: units t := by
  rw [units, List.flatMap_cons, if_neg (by omega)]
  rfl

theorem units_cons_unit {c : CodePoint} (h : c.val < 0x10000) (t : Text) : units (c :: t) = c :: units t := by
  rw [units, List.flatMap_cons, if_pos h]
  rfl

theorem joinSurrogates_units (t : Text) : joinSurrogates (units t) = joinSurrogates t := by
  induction t with
  | nil => rfl
  | cons c t ih =>
    rcases Nat.lt_or_ge c.val 0x10000 with hlt | hge
    · rw [units_cons_unit hlt, joinSurrogates_cons, joinSurrogates_cons, ih]
    · have hlow := isLow_iff.1 c.isLow_lowHalf
      have hlow' : c.lowHalf.isHigh = false := isHigh_eq_false.2 (by omega)
      have hc : c.isHigh = false := isHigh_eq_false.2 (by omega)
      -- the low half stays alone until the high half comes in front of it
      rw [units_cons_supplementary hge, joinSurrogates_cons, joinSurrogates_cons, joinSurrogates_cons, ih,
        attach_of_not_high hlow', attach_of_not_high hc, attach, isHigh_highHalf, isLow_lowHalf, Bool.and_self,
        if_pos rfl, ofPair_halves hge]

theorem joinSurrogates_of_not_surrogate {t : Text} (h : ∀ c ∈ t, c.isSurrogate = false) : joinSurrogates t = t := by
  induction t with
  | nil => rfl
  | cons c t ih =>
    obtain ⟨hc, ht⟩ := List.forall_mem_cons.1 h
    rw [isSurrogate_eq_false] at hc
    rw [joinSurrogates_cons, ih ht, attach_of_not_high (isHigh_eq_false.2 (by omega))]

end Text

/-! ## Single code units -/

namespace ModifiedUtf8

open Utf8 CodePoint

theorem isContinuation_iff {b : UInt8} : isContinuation b = true ↔ 0x80 ≤ b.toNat ∧ b.toNat ≤ 0xBF := by
  simp [isContinuation, UInt8.le_iff_toNat_le]

theorem encode₂_join₂ {a b : UInt8} (ha : 0xC0 ≤ a.toNat) (hb : isContinuation b = true) :
    encode₂ (join₂ a b) = [a, b] := by
  rw [isContinuation_iff] at hb
  have hhigh : 0xC0 + join₂ a b / 0x40 = a.toNat := by unfold join₂; omega
  have hlow : 0x80 + join₂ a b % 0x40 = b.toNat := by unfold join₂; omega
  rw [encode₂, hhigh, hlow, UInt8.ofNat_toNat, UInt8.ofNat_toNat]

theorem encode₃_join₃ {a b c : UInt8} (ha : 0xE0 ≤ a.toNat) (hb : isContinuation b = true)
    (hc : isContinuation c = true) :
    encode₃ (join₃ a b c) = [a, b, c] := by
  rw [isContinuation_iff] at hb hc
  have hhigh : 0xE0 + join₃ a b c / 0x1000 = a.toNat := by unfold join₃; omega
  have hmiddle : 0x80 + join₃ a b c / 0x40 % 0x40 = b.toNat := by unfold join₃; omega
  have hlow : 0x80 + join₃ a b c % 0x40 = c.toNat := by unfold join₃; omega
  rw [encode₃, hhigh, hmiddle, hlow, UInt8.ofNat_toNat, UInt8.ofNat_toNat, UInt8.ofNat_toNat]

theorem join₂_lt {a b : UInt8} (ha : a.toNat < 0xE0) (hb : isContinuation b = true) : join₂ a b < 0x800 := by
  rw [isContinuation_iff] at hb
  unfold join₂
  omega

theorem join₃_lt {a b c : UInt8} (ha : a.toNat < 0xF0) (hb : isContinuation b = true) (hc : isContinuation c = true) :
    join₃ a b c < 0x10000 := by
  rw [isContinuation_iff] at hb hc
  unfold join₃
  omega

/-- The layouts of a code unit: one to three bytes, the shortest that will do, but two for the null character. -/
inductive UnitBytes : CodePoint → Bytes → Prop
  | one {a : UInt8} (low : 0 < a.toNat) (high : a.toNat < 0x80) : UnitBytes (.ofNat a.toNat) [a]
  | null : UnitBytes (.ofNat 0) [0xC0, 0x80]
  | two {a b : UInt8} (low : 0xC2 ≤ a.toNat) (high : a.toNat < 0xE0) (hb : isContinuation b = true) :
    UnitBytes (.ofNat (join₂ a b)) [a, b]
  | three {a b d : UInt8} (low : 0xE0 ≤ a.toNat) (high : a.toNat < 0xF0) (hb : isContinuation b = true)
      (hd : isContinuation d = true) (shortest : 0x800 ≤ join₃ a b d) : UnitBytes (.ofNat (join₃ a b d)) [a, b, d]

/-- What stands in front of the rest is laid out as a code unit. -/
theorem unitBytes_of_unit? {bs rest : Bytes} {c : CodePoint} (h : unit? bs = some (c, rest)) :
    ∃ front, UnitBytes c front ∧ bs = front ++ rest := by
  -- The branches that give a code unit, in their order: one byte, the null character, two bytes, three bytes.
  revert h
  fun_cases unit? bs with
  | case3 a bs h0 h1 =>
    simp only [Option.some.injEq, Prod.mk.injEq]
    rintro ⟨rfl, rfl⟩
    have hpos : 0 < a.toNat := Nat.pos_of_ne_zero fun ha => h0 (UInt8.toNat_inj.1 ha)
    exact ⟨[a], .one hpos (UInt8.lt_iff_toNat_lt.1 h1), rfl⟩
  | case4 bs =>
    simp only [Option.some.injEq, Prod.mk.injEq]
    rintro ⟨rfl, rfl⟩
    exact ⟨[0xC0, 0x80], .null, rfl⟩
  | case8 a _ _ _ low high b bs hb =>
    simp only [Option.some.injEq, Prod.mk.injEq]
    rintro ⟨rfl, rfl⟩
    exact ⟨[a, b], .two (UInt8.le_iff_toNat_le.1 (UInt8.not_lt.1 low)) (UInt8.lt_iff_toNat_lt.1 high) hb, rfl⟩
  | case11 a _ _ _ _ low high b d bs hcond =>
    simp only [Option.some.injEq, Prod.mk.injEq]
    rintro ⟨rfl, rfl⟩
    simp only [Bool.and_eq_true, decide_eq_true_eq] at hcond
    obtain ⟨⟨hb, hd⟩, hshort⟩ := hcond
    exact ⟨[a, b, d], .three (UInt8.le_iff_toNat_le.1 (UInt8.not_lt.1 low)) (UInt8.lt_iff_toNat_lt.1 high) hb hd hshort,
      rfl⟩
  | _ => exact fun h => nomatch h

theorem unit?_of_unitBytes {front : Bytes} {c : CodePoint} (h : UnitBytes c front) (rest : Bytes) :
    unit? (front ++ rest) = some (c, rest) := by
  cases h with
  | @one a low high =>
    have h0 : a ≠ 0 := by rintro rfl; exact absurd low (by decide)
    simp [unit?, h0, UInt8.lt_iff_toNat_lt, high]
  | null => rfl
  | @two a b low high hb =>
    simp only [List.cons_append, List.nil_append, unit?, UInt8.lt_iff_toNat_lt, ← UInt8.toNat_inj, UInt8.reduceToNat]
    rw [if_neg (by omega), if_neg (by omega), if_neg (by omega), if_neg (by omega), if_pos high, if_pos hb]
  | @three a b d low high hb hd shortest =>
    simp only [List.cons_append, List.nil_append, unit?, UInt8.lt_iff_toNat_lt, ← UInt8.toNat_inj, UInt8.reduceToNat]
    rw [if_neg (by omega), if_neg (by omega), if_neg (by omega), if_neg (by omega), if_neg (by omega), if_pos high,
      if_pos (by simp [hb, hd, shortest])]

theorem encodePoint_ofNat {n : Nat} (h : n < 0x10000) : encodePoint (.ofNat n) =
    if n = 0 then [0xC0, 0x80] else if n < 0x80 then [UInt8.ofNat n]
      else if n < 0x800 then encode₂ n else encode₃ n := by
  rw [encodePoint, val_ofNat (by omega), if_pos h]

theorem UnitBytes.eq_encodePoint {c : CodePoint} {front : Bytes} (h : UnitBytes c front) :
    c.val < 0x10000 ∧ front = encodePoint c := by
  cases h with
  | @one a low high =>
    rw [val_ofNat (by omega), encodePoint_ofNat (by omega), if_neg (by omega), if_pos high, UInt8.ofNat_toNat]
    exact ⟨by omega, rfl⟩
  | null => exact ⟨by decide, rfl⟩
  | @two a b low high hb =>
    have hb' := isContinuation_iff.1 hb
    have hle : 0x80 ≤ join₂ a b := by unfold join₂; omega
    have hlt := join₂_lt high hb
    rw [val_ofNat (by omega), encodePoint_ofNat (by omega), if_neg (by omega), if_neg (by omega), if_pos hlt,
      encode₂_join₂ (by omega) hb]
    exact ⟨by omega, rfl⟩
  | @three a b d low high hb hd shortest =>
    have hlt := join₃_lt high hb hd
    rw [val_ofNat (by omega), encodePoint_ofNat hlt, if_neg (by omega), if_neg (by omega), if_neg (by omega),
      encode₃_join₃ low hb hd]
    exact ⟨hlt, rfl⟩

theorem exists_byte {n : Nat} (h : n < 256) : ∃ a : UInt8, UInt8.ofNat n = a ∧ a.toNat = n :=
  ⟨_, rfl, UInt8.toNat_ofNat_of_lt' h⟩

theorem unitBytes_encodePoint {c : CodePoint} (h : c.val < 0x10000) : UnitBytes c (encodePoint c) := by
  -- The bytes are computed from the number `n` of the code point, and the layouts join them back to it.
  obtain ⟨n, hn⟩ : ∃ n, n = c.val := ⟨_, rfl⟩
  rw [← hn] at h
  obtain rfl : CodePoint.ofNat n = c := by rw [hn, ofNat_val]
  rw [encodePoint_ofNat h]
  by_cases h0 : n = 0
  · subst h0
    exact .null
  rw [if_neg h0]
  by_cases h1 : n < 0x80
  · obtain ⟨a, hofNat, rfl⟩ := exists_byte (show n < 256 by omega)
    rw [if_pos h1, hofNat]
    exact .one (by omega) h1
  rw [if_neg h1]
  by_cases h2 : n < 0x800
  · obtain ⟨a, hofNat, ha⟩ := exists_byte (show 0xC0 + n / 0x40 < 256 by omega)
    obtain ⟨b, hofNat', hb⟩ := exists_byte (show 0x80 + n % 0x40 < 256 by omega)
    have hjoin : n = join₂ a b := by unfold join₂; omega
    rw [if_pos h2, encode₂, hofNat, hofNat', hjoin]
    exact .two (by omega) (by omega) (isContinuation_iff.2 (by omega))
  · obtain ⟨a, hofNat, ha⟩ := exists_byte (show 0xE0 + n / 0x1000 < 256 by omega)
    obtain ⟨b, hofNat', hb⟩ := exists_byte (show 0x80 + n / 0x40 % 0x40 < 256 by omega)
    obtain ⟨d, hofNat'', hd⟩ := exists_byte (show 0x80 + n % 0x40 < 256 by omega)
    have hjoin : n = join₃ a b d := by unfold join₃; omega
    rw [if_neg h2, encode₃, hofNat, hofNat', hofNat'', hjoin]
    exact .three (by omega) (by omega) (isContinuation_iff.2 (by omega)) (isContinuation_iff.2 (by omega)) (by omega)

/-- **A code unit has one layout**, the one that is written for it. -/
theorem unit?_eq_some {bs rest : Bytes} {c : CodePoint} :
    unit? bs = some (c, rest) ↔ c.val < 0x10000 ∧ bs = encodePoint c ++ rest := by
  constructor
  · intro h
    obtain ⟨front, hfront, rfl⟩ := unitBytes_of_unit? h
    obtain ⟨hlt, rfl⟩ := hfront.eq_encodePoint
    exact ⟨hlt, rfl⟩
  · rintro ⟨hlt, rfl⟩
    exact unit?_of_unitBytes (unitBytes_encodePoint hlt) rest

/-- A code unit takes up at least one byte. -/
theorem length_lt_of_unit? {bs rest : Bytes} {c : CodePoint} (h : unit? bs = some (c, rest)) :
    rest.length < bs.length := by
  obtain ⟨front, hfront, rfl⟩ := unitBytes_of_unit? h
  rw [List.length_append]
  cases hfront <;> simp

/-- **The strict form has one encoding for each sequence of code units.** -/
theorem scans_unit?_iff {bs : Bytes} {t : Text} : Scans unit? bs t ↔ (∀ c ∈ t, c.val < 0x10000) ∧ bs = encode t := by
  constructor
  · intro h
    induction h with
    | nil => exact ⟨List.forall_mem_nil _, rfl⟩
    | cons head tail ih =>
      obtain ⟨hlt, rfl⟩ := unit?_eq_some.1 head
      obtain ⟨hall, rfl⟩ := ih
      exact ⟨List.forall_mem_cons.2 ⟨hlt, hall⟩, rfl⟩
  · rintro ⟨hall, rfl⟩
    induction t with
    | nil => exact .nil
    | cons c t ih =>
      obtain ⟨hlt, hall⟩ := List.forall_mem_cons.1 hall
      exact .cons (unit?_eq_some.2 ⟨hlt, rfl⟩) (ih hall)

theorem decodeStrict?_eq_some {bs : Bytes} {t : Text} :
    decodeStrict? bs = some t ↔ ∃ units, Scans unit? bs units ∧ t = Text.joinSurrogates units := by
  rw [decodeStrict?, Option.map_eq_some_iff]
  constructor
  · rintro ⟨units, h, rfl⟩
    obtain ⟨_, rfl, hscans⟩ := scans_of_scan h
    exact ⟨_, hscans, rfl⟩
  · rintro ⟨units, h, rfl⟩
    exact ⟨units, scan_of_scans rfl (fun _ _ _ => length_lt_of_unit?) h (Nat.le_refl _), rfl⟩

/-! ## The strict form -/

theorem encodePoint_surrogate {c : CodePoint} (h : c.isHigh = true ∨ c.isLow = true) :
    encodePoint c = encode₃ c.val := by
  rw [isHigh_iff, isLow_iff] at h
  rw [encodePoint, if_neg (by omega), if_neg (by omega), if_neg (by omega), if_pos (by omega)]

theorem encodePoint_supplementary {c : CodePoint} (h : 0x10000 ≤ c.val) :
    encodePoint c = encodePoint c.highHalf ++ encodePoint c.lowHalf := by
  rw [encodePoint_surrogate (.inl c.isHigh_highHalf), encodePoint_surrogate (.inr c.isLow_lowHalf), encodePoint,
    if_neg (by omega), if_neg (by omega), if_neg (by omega), if_neg (by omega)]

theorem encode_cons (c : CodePoint) (t : Text) : encode (c :: t) = encodePoint c ++ encode t := rfl

/-- A pair is encoded alike before and after it is joined. -/
theorem encode_attach (c : CodePoint) (t : Text) : encode (Text.attach c t) = encodePoint c ++ encode t := by
  cases t with
  | nil => rfl
  | cons d t =>
    rw [Text.attach]
    by_cases hpair : (c.isHigh && d.isLow) = true
    · obtain ⟨hc, hd⟩ := Bool.and_eq_true_iff.1 hpair
      have hval := val_ofPair hc hd
      rw [if_pos hpair, encode_cons, encodePoint_supplementary (by omega), highHalf_ofPair hc hd, lowHalf_ofPair hc hd,
        encode_cons, List.append_assoc]
    · rw [if_neg hpair, encode_cons]

theorem encode_joinSurrogates (t : Text) : encode (Text.joinSurrogates t) = encode t := by
  induction t with
  | nil => rfl
  | cons c t ih => rw [Text.joinSurrogates, List.foldr_cons, encode_attach, ← Text.joinSurrogates, ih, encode_cons]

theorem encode_units (t : Text) : encode t.units = encode t := by
  induction t with
  | nil => rfl
  | cons c t ih =>
    rcases Nat.lt_or_ge c.val 0x10000 with hlt | hge
    · rw [Text.units_cons_unit hlt, encode_cons, encode_cons, ih]
    · rw [Text.units_cons_supplementary hge, encode_cons, encode_cons, encode_cons, ih, encodePoint_supplementary hge,
        List.append_assoc]

/-- **The strict form of every text is read back**, with the text's surrogate pairs joined. -/
theorem decodeStrict?_encode (t : Text) : decodeStrict? (encode t) = some (Text.joinSurrogates t) :=
  decodeStrict?_eq_some.2 ⟨t.units, scans_unit?_iff.2 ⟨fun _ => Text.val_lt_of_mem_units, (encode_units t).symm⟩,
    t.joinSurrogates_units.symm⟩

theorem encode_of_decodeStrict? {bs : Bytes} {t : Text} (h : decodeStrict? bs = some t) : encode t = bs := by
  obtain ⟨units, hscans, rfl⟩ := decodeStrict?_eq_some.1 h
  rw [encode_joinSurrogates, (scans_unit?_iff.1 hscans).2]

/-! ## Standard UTF-8 -/

/-- Bytes of the modified form alone: none is zero, and none begins a sequence of four. -/
def Canonical (bs : Bytes) : Prop := ∀ b ∈ bs, b ≠ 0 ∧ b < 0xF0

/-- **What standard UTF-8 has beyond code units that are no surrogates**: a zero byte, or a sequence of four bytes. -/
theorem next?_cases {bs rest : Bytes} {c : CodePoint} (h : next? bs = some (c, rest)) :
    c.isSurrogate = false ∧
      (unit? bs = some (c, rest) ∨ (∃ tail, bs = 0 :: tail) ∨ ∃ a tail, bs = a :: tail ∧ 0xF0 ≤ a.toNat) := by
  -- The branches that give a code point, by the number of its bytes: one, two, three, four.
  revert h
  fun_cases next? bs with
  | case2 a bs ha =>
    simp only [Option.some.injEq, Prod.mk.injEq]
    rintro ⟨rfl, rfl⟩
    have ha' : a.toNat < 0x80 := UInt8.lt_iff_toNat_lt.1 ha
    refine ⟨isSurrogate_eq_false.2 (.inl (by rw [val_ofNat (by omega)]; omega)), ?_⟩
    by_cases h0 : a = 0
    · exact .inr (.inl ⟨bs, by rw [h0]⟩)
    · exact .inl (unit?_of_unitBytes (.one (Nat.pos_of_ne_zero fun hz => h0 (UInt8.toNat_inj.1 hz)) ha') bs)
  | case4 a h1 low high b bs hb =>
    simp only [Option.some.injEq, Prod.mk.injEq]
    rintro ⟨rfl, rfl⟩
    have hunit := UnitBytes.two (UInt8.le_iff_toNat_le.1 (UInt8.not_lt.1 low)) (UInt8.lt_iff_toNat_lt.1 high) hb
    have hlt := join₂_lt (UInt8.lt_iff_toNat_lt.1 high) hb
    refine ⟨isSurrogate_eq_false.2 (.inl ?_), .inl (unit?_of_unitBytes hunit bs)⟩
    rw [val_ofNat (by omega)]
    omega
  | case7 a _ _ low high b d bs hcond =>
    simp only [Option.some.injEq, Prod.mk.injEq]
    rintro ⟨rfl, rfl⟩
    simp only [Bool.and_eq_true, decide_eq_true_eq, Bool.not_eq_true', Bool.and_eq_false_iff,
      decide_eq_false_iff_not] at hcond
    obtain ⟨⟨⟨hb, hd⟩, hshort⟩, hsurrogate⟩ := hcond
    have hunit := UnitBytes.three (UInt8.le_iff_toNat_le.1 (UInt8.not_lt.1 low))
      (UInt8.lt_iff_toNat_lt.1 high) hb hd hshort
    have hlt := join₃_lt (UInt8.lt_iff_toNat_lt.1 high) hb hd
    refine ⟨isSurrogate_eq_false.2 ?_, .inl (unit?_of_unitBytes hunit bs)⟩
    rw [val_ofNat (by omega)]
    omega
  | case10 a _ _ _ low high b d e bs hcond =>
    simp only [Option.some.injEq, Prod.mk.injEq]
    rintro ⟨rfl, rfl⟩
    simp only [Bool.and_eq_true, decide_eq_true_eq] at hcond
    refine ⟨isSurrogate_eq_false.2 (.inr ?_), .inr (.inr ⟨a, _, rfl, UInt8.le_iff_toNat_le.1 (UInt8.not_lt.1 low)⟩)⟩
    rw [val_ofNat hcond.2]
    omega
  | _ => exact fun h => nomatch h

/-- Standard UTF-8 spells no surrogate, so that nothing in its text is left to join. -/
theorem isSurrogate_of_scans {bs : Bytes} {t : Text} (h : Scans next? bs t) : ∀ c ∈ t, c.isSurrogate = false := by
  induction h with
  | nil => exact List.forall_mem_nil _
  | cons head tail ih => exact List.forall_mem_cons.2 ⟨(next?_cases head).1, ih⟩

theorem scans_unit?_of_canonical {bs : Bytes} {t : Text} (h : Scans next? bs t) (hbs : Canonical bs) :
    Scans unit? bs t := by
  induction h with
  | nil => exact .nil
  | cons head tail ih =>
    obtain ⟨-, hunit | ⟨tail, rfl⟩ | ⟨a, tail, rfl, ha⟩⟩ := next?_cases head
    · obtain ⟨front, -, rfl⟩ := unitBytes_of_unit? hunit
      exact .cons hunit (ih fun b hb => hbs b (List.mem_append_right front hb))
    · exact absurd rfl (hbs 0 List.mem_cons_self).1
    · have hlt := UInt8.lt_iff_toNat_lt.1 (hbs a List.mem_cons_self).2
      exact absurd ha (Nat.not_le_of_lt hlt)

theorem scans_of_decode? {bs : Bytes} {t : Text} (h : Utf8.decode? bs = some t) : Scans next? bs t := by
  obtain ⟨_, rfl, hscans⟩ := scans_of_scan h
  exact hscans

/-- Where both forms apply they agree. -/
theorem decode?_of_canonical {bs : Bytes} (hbs : Canonical bs) : decode? bs = decodeStrict? bs := by
  rw [decode?]
  cases h : Utf8.decode? bs with
  | none => rfl
  | some t =>
    have hscans := scans_of_decode? h
    refine (decodeStrict?_eq_some.2 ⟨t, scans_unit?_of_canonical hscans hbs, ?_⟩).symm
    exact (Text.joinSurrogates_of_not_surrogate (isSurrogate_of_scans hscans)).symm

theorem canonical_nil : Canonical [] := List.forall_mem_nil _

theorem canonical_cons {b : UInt8} {bs : Bytes} :
    Canonical (b :: bs) ↔ (0 < b.toNat ∧ b.toNat < 0xF0) ∧ Canonical bs := by
  have hzero : b ≠ 0 ↔ 0 < b.toNat := by rw [ne_eq, ← UInt8.toNat_inj, Nat.pos_iff_ne_zero]; rfl
  rw [Canonical, List.forall_mem_cons, hzero, UInt8.lt_iff_toNat_lt]
  rfl

theorem UnitBytes.canonical {c : CodePoint} {front : Bytes} (h : UnitBytes c front) : Canonical front := by
  cases h with
  | one low high => exact canonical_cons.2 ⟨by omega, canonical_nil⟩
  | null => exact canonical_cons.2 ⟨by decide, canonical_cons.2 ⟨by decide, canonical_nil⟩⟩
  | two low high hb =>
    rw [isContinuation_iff] at hb
    exact canonical_cons.2 ⟨by omega, canonical_cons.2 ⟨by omega, canonical_nil⟩⟩
  | three low high hb hd _ =>
    rw [isContinuation_iff] at hb hd
    exact canonical_cons.2 ⟨by omega, canonical_cons.2 ⟨by omega, canonical_cons.2 ⟨by omega, canonical_nil⟩⟩⟩

theorem canonical_encode (t : Text) : Canonical (encode t) := by
  intro b hb
  rw [← encode_units] at hb
  obtain ⟨c, hc, hbc⟩ := List.mem_flatMap.1 hb
  exact (unitBytes_encodePoint (Text.val_lt_of_mem_units hc)).canonical b hbc

/-- **Every text survives its encoding**, with its surrogate pairs joined. -/
theorem decode?_encode (t : Text) : decode? (encode t) = some (Text.joinSurrogates t) := by
  rw [decode?_of_canonical (canonical_encode t), decodeStrict?_encode]

theorem joinSurrogates_of_decode? {bs : Bytes} {t : Text} (h : decode? bs = some t) : Text.joinSurrogates t = t := by
  rw [decode?] at h
  cases hstandard : Utf8.decode? bs with
  | some t' =>
    rw [hstandard] at h
    cases h
    exact Text.joinSurrogates_of_not_surrogate (isSurrogate_of_scans (scans_of_decode? hstandard))
  | none =>
    rw [hstandard] at h
    have hstrict : decodeStrict? bs = some t := h
    have hagain := decodeStrict?_encode t
    rw [encode_of_decodeStrict? hstrict, hstrict] at hagain
    exact (Option.some.inj hagain).symm

/-- **Which bytes are the encoding of the text that they spell.** -/
theorem encode_eq_iff {bs : Bytes} {t : Text} (h : decode? bs = some t) : encode t = bs ↔ Canonical bs := by
  constructor
  · rintro rfl
    exact canonical_encode t
  · intro hbs
    rw [decode?_of_canonical hbs] at h
    exact encode_of_decodeStrict? h

end ModifiedUtf8
end Jvm
