import Jvm.Proofs.CodeWindows
/-!
# Attributes inside attributes come to an end

A method body ends in attributes, which may hold method bodies, and a pool can give every one of them the name `Code`.
Nothing in a file bounds how deep this goes but the bytes: a window that is opened inside another is at least eighteen
bytes shorter.

The recursion is given here without any bound, as what reading an attribute, a method body or a list *ends* with.  It
ends on every input, and with what `Attribute.decoder` answers; and a decoder that gives up below a number of levels
does not notice its limit, whatever it would do there: `Attribute.nesting_ends`.
-/
namespace Jvm

open Decoder

/-- The answer with another value. -/
def Decoder.Answer.map {α β : Type} (f : α → β) : Answer α → Answer β
  | .ok a t => .ok (f a) t
  | .error e t => .error e t

namespace Attribute

/-! ## The recursion -/

/-- Reads the name of an attribute and its length. -/
def head (pool : ConstantPool) : Decoder (String × UInt32) := do
  let index ← Decoder.u2
  let name ← Decoder.ofExcept (pool.utf8 index)
  let length ← Decoder.u4
  return (name, length)

mutual

/-- Reading one attribute ends with this answer. -/
inductive RecordEnds (pool : ConstantPool) : DecodeState → Answer Attribute → Prop
  | headless {s t : DecodeState} {e : DecodeError} (h : head pool s = .error e t) : RecordEnds pool s (.error e t)
  | skipped {s t : DecodeState} {name : String} {length : UInt32} (h : head pool s = .ok (name, length) t)
      (other : name ≠ codeName) : RecordEnds pool s (skip name length t)
  | uncut {s t u : DecodeState} {length : UInt32} {e : DecodeError} (h : head pool s = .ok (codeName, length) t)
      (short : window length.toNat t = .error e u) : RecordEnds pool s (.error e u)
  | body {s t u : DecodeState} {length : UInt32} {w : Cursor} {r : Answer Code}
    (h : head pool s = .ok (codeName, length) t)
      (cut : window length.toNat t = .ok w u) (inner : BodyEnds pool ⟨w, u.events⟩ r) :
    RecordEnds pool s (ofBody length u.cursor r.toDecoded).answer

/-- Reading a method body ends with this answer. -/
inductive BodyEnds (pool : ConstantPool) : DecodeState → Answer Code → Prop
  | cut {s t : DecodeState} {e : DecodeError} (h : Code.front s = .error e t) : BodyEnds pool s (.error e t)
  | attributes {s t : DecodeState} {body : Code} {r : Answer (List Attribute)} (h : Code.front s = .ok body t)
      (list : ListEnds pool t r) : BodyEnds pool s (r.map fun _ => body)

/-- Reading a list of attributes ends with this answer. -/
inductive ListEnds (pool : ConstantPool) : DecodeState → Answer (List Attribute) → Prop
  | uncounted {s t : DecodeState} {e : DecodeError} (h : u2 s = .error e t) : ListEnds pool s (.error e t)
  | counted {s t : DecodeState} {count : UInt16} {r : Answer (List Attribute)} (h : u2 s = .ok count t)
      (items : ItemsEnd pool count.toNat t r) : ListEnds pool s r

/-- Reading a number of attributes, one behind the other, ends with this answer. -/
inductive ItemsEnd (pool : ConstantPool) : Nat → DecodeState → Answer (List Attribute) → Prop
  | none {s : DecodeState} : ItemsEnd pool 0 s (.ok [] s)
  | failed {n : Nat} {s t : DecodeState} {e : DecodeError} (first : RecordEnds pool s (.error e t)) :
    ItemsEnd pool (n + 1) s (.error e t)
  | next {n : Nat} {s t : DecodeState} {a : Attribute} {r : Answer (List Attribute)}
    (first : RecordEnds pool s (.ok a t))
      (rest : ItemsEnd pool n t r) : ItemsEnd pool (n + 1) s (r.map (a :: ·))

end

/-! ### The decoder takes the same turns -/

variable {pool : ConstantPool} {s t u : DecodeState}

theorem record_eq (pool : ConstantPool) (nested : Nat → Decoder (List Attribute)) :
    record pool nested =
      head pool >>= fun h => if h.1 = codeName then codeIn h.2 (nested h.2.toNat) else skip h.1 h.2 := by
  simp only [record, head, bind_assoc, pure_bind]

theorem takes_head (pool : ConstantPool) : Takes 6 (head pool) := by
  intro s a t h
  obtain ⟨index, u, hindex, hrest⟩ := bind_eq_ok.1 h
  obtain ⟨name, v, hname, hrest⟩ := bind_eq_ok.1 hrest
  obtain ⟨length, w, hlength, hdone⟩ := bind_eq_ok.1 hrest
  obtain ⟨-, rfl⟩ := pure_eq_ok.1 hdone
  obtain ⟨-, rfl⟩ := ofExcept_eq_ok.1 hname
  have h2 := takes_u2 _ _ _ hindex
  have h4 := takes_u4 _ _ _ hlength
  omega

theorem decoder_of_headless {e : DecodeError} (h : head pool s = .error e t) : decoder pool s = .error e t := by
  rw [decoder_eq, record_eq, Decoder.bind_of_error h]

theorem decoder_of_skipped {name : String} {length : UInt32} (h : head pool s = .ok (name, length) t)
    (hname : name ≠ codeName) :
    decoder pool s = skip name length t := by
  rw [decoder_eq, record_eq, Decoder.bind_of_ok h, if_neg hname]

theorem decoder_of_code {length : UInt32} (h : head pool s = .ok (codeName, length) t) :
    decoder pool s = codeIn length (listDecoder pool) t := by
  rw [decoder_eq, record_eq, Decoder.bind_of_ok h, if_pos rfl]

theorem map_eq_bind {α β : Type} (d : Decoder α) (f : α → β) (s : DecodeState) :
    (d >>= fun a => pure (f a)) s = Answer.map f (d s) := by
  show EStateM.bind _ _ s = _
  unfold EStateM.bind
  cases d s <;> rfl

mutual

theorem RecordEnds.eq {s : DecodeState} {r : Answer Attribute} : RecordEnds pool s r → r = decoder pool s
  | .headless h => (decoder_of_headless h).symm
  | .skipped h other => (decoder_of_skipped h other).symm
  | .uncut h short => by rw [decoder_of_code h, codeIn, Decoder.bind_of_error short]
  | .body h cut inner => by rw [decoder_of_code h, codeIn_of_window cut, inner.eq]

theorem BodyEnds.eq {s : DecodeState} {r : Answer Code} : BodyEnds pool s r → r = Code.decoder (listDecoder pool) s
  | .cut h => by rw [Code.decoder_eq, Decoder.bind_of_error h]
  | .attributes h list => by rw [Code.decoder_eq, Decoder.bind_of_ok h, map_eq_bind, list.eq]

theorem ListEnds.eq {s : DecodeState} {r : Answer (List Attribute)} : ListEnds pool s r → r = listDecoder pool s
  | .uncounted h => by rw [listDecoder, Decoder.counted, Decoder.bind_of_error h]
  | .counted h items => by rw [listDecoder, Decoder.counted, Decoder.bind_of_ok h, items.eq]

theorem ItemsEnd.eq {n : Nat} {s : DecodeState} {r : Answer (List Attribute)} :
    ItemsEnd pool n s r → r = times (decoder pool) n s
  | .none => rfl
  | .failed first => by rw [times_succ, Decoder.bind_of_error first.eq.symm]
  | .next first rest => by rw [times_succ, Decoder.bind_of_ok first.eq.symm, map_eq_bind, rest.eq]

end

/-! ### It ends everywhere -/

/-- An attribute ends if the lists that are shorter by eighteen bytes do. -/
theorem recordEnds_of_lists {k : Nat}
    (hlists : ∀ u : DecodeState, u.cursor.remaining < k → ListEnds pool u (listDecoder pool u)) (s : DecodeState)
    (hs : s.cursor.remaining < k + 16) : RecordEnds pool s (decoder pool s) := by
  cases hhead : head pool s with
  | error e t =>
    rw [decoder_of_headless hhead]
    exact .headless hhead
  | ok a t =>
    obtain ⟨name, length⟩ := a
    have hsix := takes_head pool s _ t hhead
    by_cases hname : name = codeName
    · subst hname
      rw [decoder_of_code hhead]
      cases hwindow : window length.toNat t with
      | error e u =>
        rw [codeIn, Decoder.bind_of_error hwindow]
        exact .uncut hhead hwindow
      | ok w u =>
        have hcut : t.cursor.remaining = w.remaining + u.cursor.remaining := (window_eq_ok.1 hwindow).2.2.1.remaining
        rw [codeIn_of_window hwindow]
        refine .body hhead hwindow ?_
        rw [Code.decoder_eq]
        cases hfront : Code.front ⟨w, u.events⟩ with
        | error e v =>
          rw [Decoder.bind_of_error hfront]
          exact .cut hfront
        | ok body v =>
          have hten : v.cursor.remaining + 10 ≤ w.remaining := Code.takes_front _ _ _ hfront
          rw [Decoder.bind_of_ok hfront, map_eq_bind]
          exact .attributes hfront (hlists v (by omega))
    · rw [decoder_of_skipped hhead hname]
      exact .skipped hhead hname

theorem itemsEnd_of_records {k : Nat}
    (hrecords : ∀ u : DecodeState, u.cursor.remaining < k → RecordEnds pool u (decoder pool u)) :
    ∀ (n : Nat) (s : DecodeState), s.cursor.remaining < k → ItemsEnd pool n s (times (decoder pool) n s)
  | 0, _, _ => .none
  | n + 1, s, hs => by
    have hfirst := hrecords s hs
    rw [times_succ]
    cases hrecord : decoder pool s with
    | error e t =>
      rw [hrecord] at hfirst
      rw [Decoder.bind_of_error hrecord]
      exact .failed hfirst
    | ok a t =>
      have hless := (composed_decoder pool).takes s a t hrecord
      rw [hrecord] at hfirst
      rw [Decoder.bind_of_ok hrecord, map_eq_bind]
      exact .next hfirst (itemsEnd_of_records hrecords n t (by omega))

/-- **Reading a list of attributes ends.**  The induction is on the levels that there is room for. -/
theorem listEnds_listDecoder : ∀ (n : Nat) (s : DecodeState), s.cursor.remaining < 18 * n →
    ListEnds pool s (listDecoder pool s)
  | 0, _, hs => absurd hs (Nat.not_lt_zero _)
  | n + 1, s, hs => by
    have hrecords (u : DecodeState) (hu : u.cursor.remaining < 18 * n + 16) : RecordEnds pool u (decoder pool u) :=
      recordEnds_of_lists (listEnds_listDecoder n) u hu
    rw [listDecoder, Decoder.counted]
    cases hcount : u2 s with
    | error e t =>
      rw [Decoder.bind_of_error hcount]
      exact .uncounted hcount
    | ok count t =>
      have htwo := takes_u2 s count t hcount
      rw [Decoder.bind_of_ok hcount]
      exact .counted hcount (itemsEnd_of_records hrecords count.toNat t (by omega))

theorem recordEnds_decoder (s : DecodeState) : RecordEnds pool s (decoder pool s) :=
  recordEnds_of_lists (k := 18 * (s.cursor.remaining + 1)) (listEnds_listDecoder _) s (by omega)

/-! ## A limit on the levels -/

/-- Reads one attribute with at most `levels` method bodies inside each other.  Where there is one more, `stuck` takes
over before its window is opened. -/
def upTo (pool : ConstantPool) (stuck : Decoder Attribute) : (levels : Nat) → Decoder Attribute
  | 0 => head pool >>= fun h => if h.1 = codeName then stuck else skip h.1 h.2
  | levels + 1 => record pool fun _ => counted (upTo pool stuck levels)

/-- The head of an attribute with a body takes six bytes, and each level around it eighteen more. -/
theorem decoder_agree_upTo (pool : ConstantPool) (stuck : Decoder Attribute) :
    ∀ levels, AgreeBelow (18 * levels + 6) (decoder pool) (upTo pool stuck levels)
  | 0 => by
    intro s hs
    cases hhead : head pool s with
    | error e t => rw [decoder_of_headless hhead, upTo, Decoder.bind_of_error hhead]
    | ok a t =>
      have hsix := takes_head pool s a t hhead
      omega
  | levels + 1 => by
    have hlist : AgreeBelow (18 * levels + 8) (listDecoder pool) (counted (upTo pool stuck levels)) :=
      (decoder_agree_upTo pool stuck levels).counted (composed_decoder pool).takes
    rw [decoder_eq]
    exact record_agree (k := 18 * levels + 18) pool fun length hlength => hlist.mono (by omega)

/-! ## Windows inside windows -/

/-- Reading the method body in the window `outer` comes to an attribute at its end that has a body itself, and opens
`inner` for it. -/
def OpensWithin (pool : ConstantPool) (outer inner : Cursor) : Prop :=
  ∃ events body s count t before u length v w, Code.front ⟨outer, events⟩ = .ok body s ∧ u2 s = .ok count t ∧
    before.length < count.toNat ∧ times (decoder pool) before.length t = .ok before u ∧
    head pool u = .ok (codeName, length) v ∧ window length.toNat v = .ok inner w

theorem OpensWithin.shorter {outer inner : Cursor} (h : OpensWithin pool outer inner) :
    inner.remaining + 18 ≤ outer.remaining := by
  obtain ⟨events, body, s, count, t, before, u, length, v, w, hfront, hcount, -, hbefore, hhead, hwindow⟩ := h
  have hten : s.cursor.remaining + 10 ≤ outer.remaining := Code.takes_front _ _ _ hfront
  have htwo := takes_u2 _ _ _ hcount
  have hless := ((composed_decoder pool).times _).takes _ _ _ hbefore
  have hsix := takes_head pool _ _ _ hhead
  have hcut : v.cursor.remaining = inner.remaining + w.cursor.remaining := (window_eq_ok.1 hwindow).2.2.1.remaining
  omega

/-- **Attributes come to an end, however they are nested.**  Reading one attribute ends with one answer only, and so
does reading a list. A window inside another is at least eighteen bytes shorter.  So with `R` bytes left, a limit of
`R / 18 + 1` levels is never met: the decoder with this limit gives the same answer and leaves the same state, whatever
it would do at its limit. -/
theorem nesting_ends (pool : ConstantPool) (s : DecodeState) :
    (∀ r, RecordEnds pool s r ↔ r = decoder pool s) ∧
      (∀ r, ListEnds pool s r ↔ r = listDecoder pool s) ∧
      (∀ outer inner, OpensWithin pool outer inner → inner.remaining + 18 ≤ outer.remaining) ∧
      ∀ stuck, upTo pool stuck (s.cursor.remaining / 18 + 1) s = decoder pool s ∧
        counted (upTo pool stuck (s.cursor.remaining / 18 + 1)) s = listDecoder pool s := by
  refine ⟨fun r => ⟨RecordEnds.eq, ?_⟩, fun r => ⟨ListEnds.eq, ?_⟩, fun _ _ => OpensWithin.shorter, fun stuck => ?_⟩
  · rintro rfl
    exact recordEnds_decoder s
  · rintro rfl
    exact listEnds_listDecoder (s.cursor.remaining + 1) s (by omega)
  · have hagree := decoder_agree_upTo pool stuck (s.cursor.remaining / 18 + 1)
    exact ⟨(hagree s (by omega)).symm, (hagree.counted (composed_decoder pool).takes s (by omega)).symm⟩

/-- A method body of twelve bytes, with nothing in it. -/
def innerBody : Bytes := [0, 0, 0, 0, 0, 0, 0, 0, 0, 0, 0, 0]

/-- A method body that has nothing in it but an attribute with a body of its own. -/
def outerBody : Bytes := [0, 0, 0, 0, 0, 0, 0, 0, 0, 0, 0, 1, 0, 1, 0, 0, 0, 12] ++ innerBody

/-- The inner window is shorter by the eighteen bytes in front of it and no more; reading both ends, and no third level
is entered. -/
theorem outerBody_ends :
    OpensWithin codePool ⟨6, outerBody⟩ ⟨24, innerBody⟩ ∧ innerBody.length + 18 ≤ outerBody.length ∧
      RecordEnds codePool ⟨⟨0, [0, 1, 0, 0, 0, 30] ++ outerBody⟩, #[]⟩ (.ok (.code ⟨0, 0, #[], []⟩) ⟨⟨36, []⟩, #[]⟩) ∧
      ∀ stuck, upTo codePool stuck 3 ⟨⟨0, [0, 1, 0, 0, 0, 30] ++ outerBody⟩, #[]⟩ =
        .ok (.code ⟨0, 0, #[], []⟩) ⟨⟨36, []⟩, #[]⟩ := by
  have hfront : Code.front ⟨⟨6, outerBody⟩, #[]⟩ = .ok ⟨0, 0, #[], []⟩ ⟨⟨16, outerBody.drop 10⟩, #[]⟩ := rfl
  have hcount : u2 ⟨⟨16, outerBody.drop 10⟩, #[]⟩ = .ok 1 ⟨⟨18, outerBody.drop 12⟩, #[]⟩ := rfl
  have hhead : head codePool ⟨⟨18, outerBody.drop 12⟩, #[]⟩ = .ok (codeName, 12) ⟨⟨24, innerBody⟩, #[]⟩ := rfl
  have hwindow : window 12 ⟨⟨24, innerBody⟩, #[]⟩ = .ok ⟨24, innerBody⟩ ⟨⟨36, []⟩, #[]⟩ := rfl
  have hopens : OpensWithin codePool ⟨6, outerBody⟩ ⟨24, innerBody⟩ :=
    ⟨#[], _, _, 1, _, [], _, 12, _, _, hfront, hcount, by decide, rfl, hhead, hwindow⟩
  have hnone : BodyEnds codePool ⟨⟨24, innerBody⟩, #[]⟩ (.ok ⟨0, 0, #[], []⟩ ⟨⟨36, []⟩, #[]⟩) :=
    .attributes (t := ⟨⟨34, [0, 0]⟩, #[]⟩) rfl (.counted (t := ⟨⟨36, []⟩, #[]⟩) rfl .none)
  have hinner : RecordEnds codePool ⟨⟨18, outerBody.drop 12⟩, #[]⟩ (.ok (.code ⟨0, 0, #[], []⟩) ⟨⟨36, []⟩, #[]⟩) :=
    .body hhead hwindow hnone
  have houter : BodyEnds codePool ⟨⟨6, outerBody⟩, #[]⟩ (.ok ⟨0, 0, #[], []⟩ ⟨⟨36, []⟩, #[]⟩) :=
    .attributes hfront (.counted hcount (.next hinner .none))
  have hrecordHead : head codePool ⟨⟨0, [0, 1, 0, 0, 0, 30] ++ outerBody⟩, #[]⟩ =
      .ok (codeName, 30) ⟨⟨6, outerBody⟩, #[]⟩ := rfl
  have hrecordWindow : window 30 ⟨⟨6, outerBody⟩, #[]⟩ = .ok ⟨6, outerBody⟩ ⟨⟨36, []⟩, #[]⟩ := rfl
  have hends : RecordEnds codePool ⟨⟨0, [0, 1, 0, 0, 0, 30] ++ outerBody⟩, #[]⟩
      (.ok (.code ⟨0, 0, #[], []⟩) ⟨⟨36, []⟩, #[]⟩) :=
    .body hrecordHead hrecordWindow houter
  obtain ⟨hrecord, -, hshorter, hlimit⟩ := nesting_ends codePool ⟨⟨0, [0, 1, 0, 0, 0, 30] ++ outerBody⟩, #[]⟩
  exact ⟨hopens, hshorter _ _ hopens, hends, fun stuck => (hlimit stuck).1.trans ((hrecord _).1 hends).symm⟩

end Attribute

end Jvm
