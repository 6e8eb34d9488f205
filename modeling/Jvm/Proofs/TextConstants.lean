import Jvm.Proofs.SlotLayout
/-!
# Texts in a pool

Every text has an encoding, and a pool with that encoding in it gives the text back, with its surrogate pairs joined.
Whether it is also a string is a question about the joined text alone: `ConstantPool.decoder_keeps_text`.

A high surrogate may be followed by another, and a pair by a low one, so it matters which two are a pair.  The joined
text is described from the front, one step at a time (`Text.Merges`), while it is computed from the back; the two agree
because what is joined is not a surrogate any more.
-/
namespace Jvm

/-! ## Pairs from the front -/

namespace Text

open CodePoint

/-- The text with each high surrogate and the low one right behind it replaced by the code point that they stand for,
and all else left as it is. -/
inductive Merges : Text → Text → Prop
  | nil : Merges [] []
  | pair {c d : CodePoint} {t u : Text} (high : c.isHigh = true) (low : d.isLow = true) (rest : Merges t u) :
    Merges (c :: d :: t) (ofPair c d :: u)
  | single {c : CodePoint} {t u : Text} (alone : c.isHigh = true → ∀ d ∈ t.head?, d.isLow = false) (rest : Merges t u) :
    Merges (c :: t) (c :: u)

/-- No high surrogate stands right in front of a low one. -/
def Unpaired (t : Text) : Prop := ∀ front c d behind, t = front ++ c :: d :: behind → c.isHigh = true → d.isLow = false

theorem isLow_ofPair {c d : CodePoint} (hc : c.isHigh = true) (hd : d.isLow = true) : (ofPair c d).isLow = false := by
  have hval := val_ofPair hc hd
  rw [Bool.eq_false_iff, Ne, isLow_iff]
  omega

theorem attach_of_not_low {c : CodePoint} {t : Text} (h : ∀ d ∈ t.head?, d.isLow = false) : attach c t = c :: t := by
  cases t with
  | nil => rfl
  | cons d t => rw [attach, h d rfl, Bool.and_false, if_neg Bool.false_ne_true]

theorem joinSurrogates_pair {c d : CodePoint} (hc : c.isHigh = true) (hd : d.isLow = true) (t : Text) :
    joinSurrogates (c :: d :: t) = ofPair c d :: joinSurrogates t := by
  have hrange := isLow_iff.1 hd
  have hfirst : d.isHigh = false := isHigh_eq_false.2 (by omega)
  rw [joinSurrogates_cons, joinSurrogates_cons, attach_of_not_high hfirst, attach, hc, hd, Bool.and_self, if_pos rfl]

/-- What comes to the front by joining is no low surrogate. -/
theorem head?_joinSurrogates {t : Text} (h : ∀ d ∈ t.head?, d.isLow = false) :
    ∀ d ∈ (joinSurrogates t).head?, d.isLow = false := by
  cases t with
  | nil => exact h
  | cons c t =>
    rw [joinSurrogates_cons]
    cases joinSurrogates t with
    | nil => exact h
    | cons d u =>
      rw [attach]
      split
      · rename_i hpair
        rw [Bool.and_eq_true] at hpair
        intro e he
        rw [← Option.some.inj he]
        exact isLow_ofPair hpair.1 hpair.2
      · exact h

theorem joinSurrogates_single {c : CodePoint} {t : Text} (h : c.isHigh = true → ∀ d ∈ t.head?, d.isLow = false) :
    joinSurrogates (c :: t) = c :: joinSurrogates t := by
  rw [joinSurrogates_cons]
  cases hc : c.isHigh with
  | false => exact attach_of_not_high hc _
  | true => exact attach_of_not_low (head?_joinSurrogates (h hc))

theorem merges_joinSurrogates : ∀ t : Text, Merges t (joinSurrogates t)
  | [] => .nil
  | [c] => .single (fun _ d hd => nomatch hd) .nil
  | c :: d :: t => by
    by_cases hpair : c.isHigh = true ∧ d.isLow = true
    · rw [joinSurrogates_pair hpair.1 hpair.2]
      exact .pair hpair.1 hpair.2 (merges_joinSurrogates t)
    · have halone : c.isHigh = true → ∀ e ∈ (d :: t).head?, e.isLow = false := by
        intro hc e he
        rw [← Option.some.inj he]
        exact Bool.eq_false_iff.2 fun hd => hpair ⟨hc, hd⟩
      rw [joinSurrogates_single halone]
      exact .single halone (merges_joinSurrogates (d :: t))

/-- **Pairs are joined from the back as from the front.** -/
theorem merges_iff {t u : Text} : Merges t u ↔ u = joinSurrogates t := by
  constructor
  · intro h
    induction h with
    | nil => rfl
    | pair high low _ ih => rw [joinSurrogates_pair high low, ih]
    | single alone _ ih => rw [joinSurrogates_single alone, ih]
  · rintro rfl
    exact merges_joinSurrogates t

theorem joinSurrogates_of_unpaired {t : Text} (h : Unpaired t) : joinSurrogates t = t := by
  induction t with
  | nil => rfl
  | cons c t ih =>
    have hrest : Unpaired t := fun front d e behind ht => h (c :: front) d e behind (by rw [ht]; rfl)
    rw [joinSurrogates_single, ih hrest]
    intro hc d hd
    obtain ⟨behind, rfl⟩ := List.head?_eq_some_iff.1 hd
    exact h [] c d behind rfl hc

theorem exists_ofString_iff {t : Text} : (∃ name, t = ofString name) ↔ ∀ c ∈ t, c.isSurrogate = false := by
  constructor
  · rintro ⟨name, rfl⟩ c hc
    obtain ⟨char, -, rfl⟩ := List.mem_map.1 hc
    exact isSurrogate_ofNat_char char
  · intro h
    refine ⟨String.ofList (t.map fun c => Char.ofNat c.val), ?_⟩
    have hsame : ∀ c ∈ t, ofNat (Char.ofNat c.val).toNat = c := by
      intro c hc
      rw [toNat_charOfNat (isValidChar_of_not_surrogate (h c hc)), ofNat_val]
    rw [ofString, String.toList_ofList, List.map_map]
    exact ((List.map_congr_left hsame).trans (List.map_id' t)).symm

end Text

/-! ## Pools with a text in them -/

namespace Constant

theorem width_pos (c : Constant) : 0 < c.width := by
  by_cases two : c.TakesTwo
  · rw [width_of_takesTwo two]
    decide
  · rw [width_of_not_takesTwo two]
    decide

theorem eq_nil_of_slotsTaken {cs : List Constant} (h : slotsTaken cs = 0) : cs = [] := by
  cases cs with
  | nil => rfl
  | cons c cs =>
    have hpos := c.width_pos
    rw [slotsTaken_cons] at h
    omega

/-- A text as a pool holds it. -/
def textEntry (s : Text) : Bytes := 0x01 :: (beBytes 2 (ModifiedUtf8.encode s).length ++ ModifiedUtf8.encode s)

theorem spelled_textEntry {s : Text} (h : (ModifiedUtf8.encode s).length ≤ 65535) :
    Spelled (.utf8 (Text.joinSurrogates s)) (textEntry s) := by
  have hlength : (UInt16.ofNat (ModifiedUtf8.encode s).length).toNat = (ModifiedUtf8.encode s).length :=
    UInt16.toNat_ofNat_of_lt' (Nat.lt_succ_of_le h)
  have hspelled := Spelled.utf8 hlength.symm (ModifiedUtf8.decode?_encode s)
  rwa [be2, hlength] at hspelled

end Constant

namespace ConstantPool

open Constant Decoder

/-- The constants take up this number of slots, or one more if the last of them is wide. -/
def TakeUp (n : Nat) (cs : List Constant) : Prop :=
  slotsTaken cs = n ∨ slotsTaken cs = n + 1 ∧ ∃ front last, cs = front ++ [last] ∧ last.TakesTwo

theorem TakeUp.tail {n : Nat} {c : Constant} {cs : List Constant} (h : TakeUp (c.width + n) (c :: cs)) :
    TakeUp n cs := by
  unfold TakeUp at h ⊢
  rw [slotsTaken_cons] at h
  rcases h with hfull | ⟨hover, front, last, hcs, two⟩
  · exact .inl (by omega)
  · refine .inr ⟨by omega, ?_⟩
    cases front with
    | nil =>
      -- the last constant alone would take up no more than its own width
      obtain ⟨rfl, rfl⟩ := List.cons.inj hcs
      have hnone : slotsTaken [] = 0 := rfl
      omega
    | cons _ front => exact ⟨front, last, (List.cons.inj hcs).2, two⟩

/-- How many slots are taken up does not depend on what a text says. -/
theorem TakeUp.other_text {n : Nat} {before behind : List Constant} {s : Text}
    (h : TakeUp n (before ++ .utf8 s :: behind)) (t : Text) :
    TakeUp n (before ++ .utf8 t :: behind) := by
  have hsame : slotsTaken (before ++ .utf8 t :: behind) = slotsTaken (before ++ .utf8 s :: behind) := by
    simp only [slotsTaken, List.map_append, List.map_cons]
    rfl
  rcases h with hfull | ⟨hover, front, last, hcs, two⟩
  · exact .inl (hsame.trans hfull)
  · refine .inr ⟨hsame.trans hover, ?_⟩
    rcases List.eq_nil_or_concat behind with rfl | ⟨more, last', rfl⟩
    · obtain ⟨-, hlast⟩ := List.append_inj' hcs rfl
      obtain ⟨v, rfl⟩ | ⟨bits, rfl⟩ := two <;> cases hlast
    · rw [List.concat_eq_append] at hcs ⊢
      rw [← List.cons_append, ← List.append_assoc] at hcs ⊢
      obtain ⟨-, hlast⟩ := List.append_inj' hcs rfl
      obtain rfl := List.singleton_inj.1 hlast
      exact ⟨_, _, rfl, two⟩

/-- **Constants that take up the slots fill them.** -/
theorem exists_fills {cs : List Constant} {bytes : Bytes} (h : InOrder Constant.Spelled cs bytes) :
    ∀ {n : Nat}, TakeUp n cs → ∃ slots, slots.filterMap id = cs ∧ Fills n slots bytes := by
  induction h with
  | nil =>
    rintro n (hfull | ⟨hover, -⟩)
    · obtain rfl : 0 = n := hfull
      exact ⟨[], rfl, .done⟩
    · cases hover
  | @cons c cs first rest head tail ih =>
    intro n hn
    have htaken := slotsTaken_cons c cs
    by_cases two : c.TakesTwo
    · have hwidth := width_of_takesTwo two
      rcases Nat.lt_or_ge n 2 with hlt | hge
      · -- a wide constant in the only slot that is left
        obtain ⟨rfl, hnone⟩ : n = 1 ∧ slotsTaken cs = 0 := by
          rcases hn with hfull | ⟨hover, -⟩ <;> omega
        obtain rfl := eq_nil_of_slotsTaken hnone
        cases tail
        rw [List.append_nil]
        exact ⟨[some c], rfl, .wideLast two head⟩
      · obtain ⟨m, rfl⟩ : ∃ m, n = c.width + m := ⟨n - 2, by omega⟩
        obtain ⟨slots, hslots, hfills⟩ := ih hn.tail
        rw [hwidth, Nat.add_comm]
        exact ⟨some c :: none :: slots, congrArg (c :: ·) hslots, .wide two head hfills⟩
    · have hwidth := width_of_not_takesTwo two
      have hpos : 0 < n := by
        rcases hn with hfull | ⟨hover, front, last, hcs, htwo⟩
        · omega
        · refine Nat.pos_of_ne_zero fun hzero => two ?_
          have hnone : slotsTaken cs = 0 := by omega
          obtain rfl := eq_nil_of_slotsTaken hnone
          obtain ⟨-, rfl⟩ : front = [] ∧ last = c := by simpa using List.append_eq_singleton_iff.1 hcs.symm
          exact htwo
      obtain ⟨m, rfl⟩ : ∃ m, n = c.width + m := ⟨n - 1, by omega⟩
      obtain ⟨slots, hslots, hfills⟩ := ih hn.tail
      rw [hwidth, Nat.add_comm]
      exact ⟨some c :: slots, congrArg (c :: ·) hslots, .narrow two head hfills⟩

/-! ## Looking a text up -/

section Lookup

variable {pool : ConstantPool} {slot index : UInt16} {t : Text}

theorem text_of_get (h : pool.get slot = .ok (.utf8 t)) : pool.text slot = .ok t := by
  simp only [text, select, h]
  rfl

theorem string_of_get (h : pool.get index = .ok (.string slot)) : pool.string index = pool.text slot := by
  simp only [string, select, h]
  rfl

theorem className_of_get (h : pool.get index = .ok (.classRef slot)) : pool.className index = pool.utf8 slot := by
  simp only [className, select, h]
  rfl

theorem utf8_of_surrogate (h : pool.get slot = .ok (.utf8 t)) (hsurrogate : ∃ c ∈ t, c.isSurrogate = true) :
    pool.utf8 slot = .error (.notUnicode slot) := by
  have hstring : t.toString? = none := by
    rw [Option.eq_none_iff_forall_ne_some]
    intro name hname
    obtain ⟨c, hc, htrue⟩ := hsurrogate
    rw [Text.exists_ofString_iff.1 ⟨name, Text.toString?_eq_some.1 hname⟩ c hc] at htrue
    cases htrue
  simp only [utf8_eq, get_eq_ok.1 h, hstring]

end Lookup

/-- **A pool gives back the texts that are encoded in it.**  Whatever constants stand around it, a text is found in its
slot with its surrogate pairs joined, and so it is itself if it has none.  It is a string, and the name of a class,
exactly if no surrogate is left when they are joined. -/
theorem decoder_keeps_text (s : Text) (before behind : List Constant) (front back rest : Bytes) (count : UInt16)
    (offset : Nat) (hlength : (ModifiedUtf8.encode s).length ≤ 65535) (hfront : InOrder Constant.Spelled before front)
    (hback : InOrder Constant.Spelled behind back) (hcount : TakeUp (count.toNat - 1) (before ++ .utf8 s :: behind)) :
    ∃ (pool : ConstantPool) (slot : UInt16) (merged : Text),
      (decoder.runAt ⟨offset, be2 count ++ (front ++ (textEntry s ++ back)) ++ rest⟩).result = .ok pool ∧
      pool.entries = placedFrom 1 (before ++ .utf8 merged :: behind) ∧ slot.toNat = 1 + slotsTaken before ∧
      (∀ t, Text.Merges s t ↔ t = merged) ∧ (Text.Unpaired s → merged = s) ∧
      pool.text slot = .ok merged ∧ (∀ j, pool.get j = .ok (.string slot) → pool.string j = .ok merged) ∧
      ((∀ c ∈ merged, c.isSurrogate = false) → ∃ name, Text.ofString name = merged ∧ pool.utf8 slot = .ok name ∧
        ∀ j, pool.get j = .ok (.classRef slot) → pool.className j = .ok name) ∧
      ((∃ c ∈ merged, c.isSurrogate = true) → pool.utf8 slot = .error (.notUnicode slot) ∧
        ∀ j, pool.get j = .ok (.classRef slot) → pool.className j = .error (.notUnicode slot)) := by
  obtain ⟨slots, hslots, hfills⟩ :=
    exists_fills (hfront.append (.cons (spelled_textEntry hlength) hback)) (hcount.other_text (Text.joinSurrogates s))
  have htook : Cursor.Took ⟨offset, be2 count ++ (front ++ (textEntry s ++ back)) ++ rest⟩
      (be2 count ++ (front ++ (textEntry s ++ back)))
        ⟨offset + (be2 count ++ (front ++ (textEntry s ++ back))).length, rest⟩ := ⟨rfl, rfl⟩
  obtain ⟨events, hdecoder⟩ := (reads_decoder ⟨_, #[]⟩ _ _).2 ⟨_, htook, .mk hfills⟩
  have hentries : entries ⟨count, (none :: slots).toArray⟩ =
      placedFrom 1 (before ++ .utf8 (Text.joinSurrogates s) :: behind) := by
    rw [entries_of_fills hfills, hslots]
  have hentry : (1 + slotsTaken before, .utf8 (Text.joinSurrogates s)) ∈ entries ⟨count, (none :: slots).toArray⟩ := by
    rw [hentries]
    refine List.mem_of_getElem? (i := before.length) ?_
    rw [getElem?_placedFrom, List.getElem?_append_right (Nat.le_refl _), Nat.sub_self, List.take_left]
    rfl
  have hslot : (UInt16.ofNat (1 + slotsTaken before)).toNat = 1 + slotsTaken before :=
    UInt16.toNat_ofNat_of_lt' (index_lt_of_fills hfills hentry)
  have hget : get ⟨count, (none :: slots).toArray⟩ (UInt16.ofNat (1 + slotsTaken before)) =
      .ok (.utf8 (Text.joinSurrogates s)) := by
    rw [get_eq_ok, hslot]
    exact mem_entries.1 hentry
  refine ⟨_, UInt16.ofNat (1 + slotsTaken before), (Text.joinSurrogates s), runAt_result_eq_ok.2 ⟨_, hdecoder⟩,
    hentries, hslot, fun t => Text.merges_iff, Text.joinSurrogates_of_unpaired, text_of_get hget, fun j hj => ?_,
    fun hnone => ?_, fun hsome => ?_⟩
  · rw [string_of_get hj, text_of_get hget]
  · obtain ⟨name, hname⟩ := Text.exists_ofString_iff.2 hnone
    have hutf8 : utf8 ⟨count, (none :: slots).toArray⟩ (UInt16.ofNat (1 + slotsTaken before)) = .ok name := by
      rw [utf8_eq_ok, Names, ← hname]
      exact get_eq_ok.1 hget
    exact ⟨name, hname.symm, hutf8, fun j hj => by rw [className_of_get hj, hutf8]⟩
  · have hutf8 := utf8_of_surrogate hget hsome
    exact ⟨hutf8, fun j hj => by rw [className_of_get hj, hutf8]⟩

/-- A null character, and a pair between a high surrogate and a low one. -/
def loneSurrogates : Text := [.ofNat 0, .ofNat 0xD800, .ofNat 0xD83D, .ofNat 0xDE00, .ofNat 0xDC00]

/-- A pair and a null character. -/
def onePair : Text := [.ofNat 0xD83D, .ofNat 0xDE00, .ofNat 0]

/-- A pool with a text in its third slot, a string and a class that name it, and two bytes behind the pool. -/
def textBytes (s : Text) : Bytes :=
  be2 6 ++ ((5 :: be8 1) ++ (textEntry s ++ ((8 :: be2 3) ++ (7 :: be2 3)))) ++ [0x00, 0x21]

/-- The outer surrogates stay alone, so that the text can be no name; without them it is one. -/
theorem surrogate_texts_kept :
    (∃ pool, (decoder.runAt (.ofBytes (textBytes loneSurrogates))).result = .ok pool ∧
      pool.string 4 = .ok [.ofNat 0, .ofNat 0xD800, .ofNat 0x1F600, .ofNat 0xDC00] ∧
      pool.className 5 = .error (.notUnicode 3)) ∧
    ∃ pool name, (decoder.runAt (.ofBytes (textBytes onePair))).result = .ok pool ∧ pool.className 5 = .ok name ∧
      Text.ofString name = [.ofNat 0x1F600, .ofNat 0] := by
  have hone {c : Constant} {bytes : Bytes} (h : c.Spelled bytes) : InOrder Constant.Spelled [c] bytes := by
    rw [← List.append_nil bytes]
    exact .cons h .nil
  have hfront : InOrder Constant.Spelled [.long 1] (5 :: be8 1) := hone (.long 1)
  have hback : InOrder Constant.Spelled [.string 3, .classRef 3] ((8 :: be2 3) ++ (7 :: be2 3)) :=
    .cons (.string 3) (hone (.classRef 3))
  have hget {pool : ConstantPool} {merged : Text}
    (h : pool.entries = placedFrom 1 ([.long 1] ++ .utf8 merged :: [.string 3, .classRef 3])) :
      pool.get 4 = .ok (.string 3) ∧ pool.get 5 = .ok (.classRef 3) := by
    constructor
    · exact get_eq_ok.2 (mem_entries.1 (by rw [h]; exact List.mem_of_getElem? (i := 2) rfl))
    · exact get_eq_ok.2 (mem_entries.1 (by rw [h]; exact List.mem_of_getElem? (i := 3) rfl))
  constructor
  · obtain ⟨pool, slot, merged, hok, hentries, hslot, hmerges, -, -, hstring, -, hnone⟩ :=
      decoder_keeps_text loneSurrogates [.long 1] [.string 3, .classRef 3] _ _ [0x00, 0x21] 6 0 (by decide) hfront hback
        (.inl rfl)
    obtain rfl : slot = 3 := UInt16.toNat_inj.1 hslot
    obtain rfl : [.ofNat 0, .ofNat 0xD800, .ofNat 0x1F600, .ofNat 0xDC00] = merged :=
      (hmerges _).1 (Text.merges_iff.2 (by decide +kernel))
    obtain ⟨hfour, hfive⟩ := hget hentries
    exact ⟨pool, hok, hstring 4 hfour, (hnone ⟨.ofNat 0xD800, .tail _ (.head _), rfl⟩).2 5 hfive⟩
  · obtain ⟨pool, slot, merged, hok, hentries, hslot, hmerges, -, -, -, hname, -⟩ :=
      decoder_keeps_text onePair [.long 1] [.string 3, .classRef 3] _ _ [0x00, 0x21] 6 0 (by decide) hfront hback
        (.inl rfl)
    obtain rfl : slot = 3 := UInt16.toNat_inj.1 hslot
    obtain rfl : [.ofNat 0x1F600, .ofNat 0] = merged := (hmerges _).1 (Text.merges_iff.2 (by decide +kernel))
    obtain ⟨name, htext, -, hclass⟩ := hname (List.forall_mem_cons.2 ⟨rfl, List.forall_mem_singleton.2 rfl⟩)
    exact ⟨pool, name, hok, hclass 5 (hget hentries).2, htext⟩

end ConstantPool

end Jvm
