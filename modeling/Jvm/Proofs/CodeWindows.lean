import Jvm.Proofs.Faults
/-!
# A method body keeps to its window

An attribute named `Code` declares how long its body is.  The bytes of the body are cut out first and decoded on their
own, so nothing behind them matters and nothing that happens among them moves the reader (`Attribute.runAt_code`).  The
body has to fill its window; how far it got otherwise is part of the error: `Attribute.code_confined`.

The attributes at the end of a body may have bodies of their own that do not fill theirs.  That error is not mistaken
for one of the outer window, which is longer than all windows in it (`Decoder.Declares`).
-/
namespace Jvm

namespace Decoder

variable {α β : Type} {n : Nat}

/-! ## Mismatches of shorter windows -/

/-- If the decoder finds that a body does not fill its window, at least `n` bytes of what is left are not in that
window. -/
def Declares (n : Nat) (d : Decoder α) : Prop := ∀ s name declared consumed t,
  d s = .error (.attributeLengthMismatch name declared consumed) t → declared.toNat + n ≤ s.cursor.remaining

theorem Truncates.declares {d : Decoder α} (h : Truncates d) (n : Nat) : Declares n d := by
  intro s name declared consumed t hd
  obtain ⟨taken, c, needed, -, -, he⟩ := h s _ t hd
  cases he

namespace Declares

theorem pure (a : α) : Declares n (Pure.pure a) := (Truncates.pure a).declares n

/-- **What is taken in front is in no window behind it.** -/
theorem bind {m : Nat} {d : Decoder α} {f : α → Decoder β} (hd : Declares (n + m) d) (hm : Takes m d)
    (hf : ∀ a, Declares n (f a)) :
    Declares (n + m) (d >>= f) := by
  intro s name declared consumed t h
  rcases bind_eq_error.1 h with h | ⟨a, u, hu, h⟩
  · exact hd s name declared consumed t h
  · have htaken := hm s a u hu
    have hleft := hf a u name declared consumed t h
    omega

theorem map {d : Decoder α} (hd : Declares n d) (f : α → β) : Declares n (d >>= fun a => Pure.pure (f a)) := by
  intro s name declared consumed t h
  rcases bind_eq_error.1 h with h | ⟨a, u, -, h⟩
  · exact hd s name declared consumed t h
  · exact absurd h pure_ne_error

theorem times {d : Decoder α} (hd : Declares n d) (h0 : Takes 0 d) : ∀ k, Declares n (Decoder.times d k)
  | 0 => pure []
  | k + 1 => by
    rw [times_succ]
    exact bind (m := 0) hd h0 fun x => (times hd h0 k).map (x :: ·)

theorem counted {d : Decoder α} (hd : Declares n d) (h0 : Takes 0 d) : Declares (n + 2) (Decoder.counted d) :=
  bind (Truncates.u2.declares _) takes_u2 fun k => hd.times h0 k.toNat

end Declares

end Decoder

open Decoder

theorem Code.takes_front : Takes 10 Code.front := Code.reads_front.takes fun _ _ hfront => hfront.ten_le

theorem Code.declares_decoder {nested : Decoder (List Attribute)} {n : Nat} (h : Declares n nested) :
    Declares (n + 10) (Code.decoder nested) := by
  rw [Code.decoder_eq]
  exact .bind (Code.truncates_front.declares _) Code.takes_front fun body => h.map fun _ => body

namespace Attribute

theorem declares_codeIn {nested : Decoder (List Attribute)} {n : Nat} (h : Declares n nested) (length : UInt32) :
    Declares 0 (codeIn length nested) := by
  intro s name declared consumed t hd
  rcases bind_eq_error.1 hd with hd | ⟨w, u, hw, hd⟩
  · exact (Truncates.window _).declares 0 s name declared consumed t hd
  obtain ⟨hlength, -, hcut, -⟩ := window_eq_ok.1 hw
  have hleft : s.cursor.remaining = w.remaining + u.cursor.remaining := hcut.remaining
  rcases bind_eq_error.1 hd with hd | ⟨⟨body, rest⟩, v, -, hd⟩
  · obtain ⟨v, hv, -⟩ := inside_eq_error.1 hd
    have hinner : declared.toNat + (n + 10) ≤ w.remaining :=
      Code.declares_decoder h ⟨w, u.events⟩ name declared consumed v hv
    omega
  · dsimp only at hd
    by_cases hempty : rest.isEmpty = true
    · rw [if_pos hempty] at hd
      exact absurd hd pure_ne_error
    · rw [if_neg hempty] at hd
      obtain ⟨he, -⟩ := throw_eq_error.1 hd
      cases he
      omega

theorem declares_record (pool : ConstantPool) {nested : Nat → Decoder (List Attribute)} {n : Nat}
    (h : ∀ length, Declares n (nested length)) : Declares 6 (record pool nested) := by
  refine .bind (n := 4) (Truncates.u2.declares _) takes_u2 fun index => ?_
  refine .bind (n := 4) (m := 0) ?_ (Composed.ofExcept (pool.utf8 index)).takes fun resolved => ?_
  · intro s name declared consumed t hd
    rcases ConstantPool.utf8_eq_error (ofExcept_eq_error.1 hd).1 with ⟨he, -⟩ | ⟨_, -, -, he⟩ | ⟨_, -, -, he⟩ <;>
      cases he
  · refine .bind (n := 0) (Truncates.u4.declares _) takes_u4 fun length => ?_
    by_cases hcode : resolved = codeName
    · rw [if_pos hcode]
      exact declares_codeIn (h length.toNat) length
    · rw [if_neg hcode]
      exact (truncates_skip resolved length).declares 0

theorem declares_listUpTo (pool : ConstantPool) : ∀ levels, Declares 0 (listUpTo pool levels)
  | 0 => .pure []
  | levels + 1 => by
    intro s name declared consumed t hd
    have hlist := Declares.counted (declares_record pool fun _ => declares_listUpTo pool levels)
      (composed_record (fun _ => composed_listUpTo pool levels) pool).takes s name declared consumed t hd
    omega

theorem declares_listDecoder (pool : ConstantPool) : Declares 8 (listDecoder pool) :=
  (declares_record pool fun length => declares_listUpTo pool (levels length)).counted (composed_decoder pool).takes

end Attribute

/-! ## Reads of known bytes -/

namespace Decoder

variable {α β : Type} {d : Decoder α} {f : α → Decoder β} {s t : DecodeState}

theorem bind_of_ok {a : α} (h : d s = .ok a t) : (d >>= f) s = f a t := by
  show EStateM.bind d f s = _
  rw [EStateM.bind, h]

theorem bind_of_error {e : DecodeError} (h : d s = .error e t) : (d >>= f) s = .error e t := bind_eq_error.2 (.inl h)

theorem number_append (digits : Bytes) (offset : Nat) (rest : Bytes) (events : Array DecodeEvent) :
    number digits.length ⟨⟨offset, digits ++ rest⟩, events⟩ =
      .ok (beNat digits) ⟨⟨offset + digits.length, rest⟩, events⟩ := by
  have hbytes : bytes digits.length ⟨⟨offset, digits ++ rest⟩, events⟩ =
      .ok digits ⟨⟨offset + digits.length, rest⟩, events⟩ :=
    bytes_eq_ok.2 ⟨rfl, ⟨rfl, rfl⟩, rfl⟩
  exact bind_of_ok hbytes

theorem u2_append (v : UInt16) (offset : Nat) (rest : Bytes) (events : Array DecodeEvent) :
    u2 ⟨⟨offset, be2 v ++ rest⟩, events⟩ = .ok v ⟨⟨offset + 2, rest⟩, events⟩ := by
  have hnumber := number_append (be2 v) offset rest events
  rw [length_be2, beNat_be2] at hnumber
  rw [u2, bind_of_ok hnumber, UInt16.ofNat_toNat]
  rfl

theorem u4_append (v : UInt32) (offset : Nat) (rest : Bytes) (events : Array DecodeEvent) :
    u4 ⟨⟨offset, be4 v ++ rest⟩, events⟩ = .ok v ⟨⟨offset + 4, rest⟩, events⟩ := by
  have hnumber := number_append (be4 v) offset rest events
  rw [length_be4, beNat_be4] at hnumber
  rw [u4, bind_of_ok hnumber, UInt32.ofNat_toNat]
  rfl

/-- **Whether a decoder succeeds, with which value and how far it gets** is a matter of which beginning of the bytes is
spelled. -/
theorem Reads.runAt_take_iff {R : Spelling α} (h : Reads d R) {a : α} {offset k : Nat} {bytes : Bytes}
    (hk : k ≤ bytes.length) :
    (d.runAt ⟨offset, bytes⟩).result = .ok a ∧ (d.runAt ⟨offset, bytes⟩).cursor = ⟨offset + k, bytes.drop k⟩ ↔
      R a (bytes.take k) := by
  have htook : (Cursor.mk offset bytes).Took (bytes.take k) ⟨offset + k, bytes.drop k⟩ :=
    ⟨(List.take_append_drop k bytes).symm, by rw [List.length_take_of_le hk]⟩
  have hreads := h ⟨⟨offset, bytes⟩, #[]⟩ a ⟨offset + k, bytes.drop k⟩
  constructor
  · rintro ⟨hresult, hcursor⟩
    obtain ⟨t, ht⟩ := runAt_result_eq_ok.1 hresult
    have hend : t.cursor = ⟨offset + k, bytes.drop k⟩ := by
      rw [← hcursor, runAt, ht]
    obtain ⟨taken, htaken, hR⟩ := hreads.1 ⟨t.events, by rw [ht, ← hend]⟩
    have hlength : taken.length = (bytes.take k).length := by
      have hoffset := htaken.2
      rw [List.length_take_of_le hk]
      exact (Nat.add_left_cancel hoffset).symm
    rwa [← (htaken.unique htook hlength).1]
  · intro hR
    obtain ⟨events, hd⟩ := hreads.2 ⟨_, htook, hR⟩
    rw [runAt, hd]
    exact ⟨rfl, rfl⟩

theorem Composed.cursor_of_runAt (h : Composed d) {a : α} {offset : Nat} {bytes : Bytes}
    (hok : (d.runAt ⟨offset, bytes⟩).result = .ok a) :
    ∃ k, k ≤ bytes.length ∧ (d.runAt ⟨offset, bytes⟩).cursor = ⟨offset + k, bytes.drop k⟩ := by
  obtain ⟨t, ht⟩ := runAt_result_eq_ok.1 hok
  obtain ⟨taken, hbytes, hoffset⟩ := (h.took _).1 a t ht
  have hsplit : bytes = taken ++ t.cursor.bytes := hbytes
  refine ⟨taken.length, ?_, ?_⟩
  · rw [hsplit, List.length_append]
    exact Nat.le_add_right _ _
  · rw [runAt, ht, hsplit, List.drop_left]
    exact Cursor.ext hoffset rfl

theorem window_append (content : Bytes) (offset : Nat) (rest : Bytes) (events : Array DecodeEvent) :
    window content.length ⟨⟨offset, content ++ rest⟩, events⟩ =
      .ok ⟨offset, content⟩ ⟨⟨offset + content.length, rest⟩, events⟩ :=
  window_eq_ok.2 ⟨rfl, rfl, ⟨rfl, rfl⟩, rfl⟩

end Decoder

/-! ## Answers -/

/-- What a decoder comes to: a value or an error, and the state that it leaves. -/
abbrev Decoder.Answer (α : Type) := EStateM.Result DecodeError DecodeState α

/-- An answer as a run shows it. -/
def Decoder.Answer.toDecoded {α : Type} : Answer α → Decoded α
  | .ok a t => ⟨.ok a, t.cursor, t.events⟩
  | .error e t => ⟨.error e, t.cursor, t.events⟩

/-- The answer that a run shows. -/
def Decoded.answer {α : Type} (r : Decoded α) : Answer α :=
  match r.result with
  | .ok a => .ok a ⟨r.cursor, r.events⟩
  | .error e => .error e ⟨r.cursor, r.events⟩

theorem Decoded.toDecoded_answer {α : Type} (r : Decoded α) : r.answer.toDecoded = r := by
  obtain ⟨result, cursor, events⟩ := r
  cases result <;> rfl

theorem Decoder.runAt_eq {α : Type} (d : Decoder α) (c : Cursor) : d.runAt c = Answer.toDecoded (d ⟨c, #[]⟩) := rfl

theorem Cursor.isEmpty_iff {c : Cursor} : c.isEmpty = true ↔ c.bytes = [] := List.isEmpty_iff

/-! ## The window of a body -/

namespace Attribute

/-- What comes of the bytes of a window as a method body. -/
def bodyIn (pool : ConstantPool) (window : Cursor) : Decoded Code := (Code.decoder (listDecoder pool)).runAt window

/-- What comes of an attribute whose body was decoded in a window of the declared length; `behind` is where the window
ends. -/
def ofBody (length : UInt32) (behind : Cursor) (body : Decoded Code) : Decoded Attribute where
  result := do
    let decoded ← body.result
    if body.cursor.isEmpty then return .code decoded
    else throw (.attributeLengthMismatch codeName length (length.toNat - body.cursor.remaining))
  cursor := behind
  events := body.events

variable {pool : ConstantPool} {index : UInt16} {length : UInt32} {window : Bytes}

theorem decoder_append (named : pool.utf8 index = .ok codeName) (offset : Nat) (rest : Bytes)
    (events : Array DecodeEvent) :
    decoder pool ⟨⟨offset, be2 index ++ be4 length ++ rest⟩, events⟩ =
      codeIn length (listDecoder pool) ⟨⟨offset + 6, rest⟩, events⟩ := by
  have hname : Decoder.ofExcept (pool.utf8 index) ⟨⟨offset + 2, be4 length ++ rest⟩, events⟩ =
      .ok codeName ⟨⟨offset + 2, be4 length ++ rest⟩, events⟩ := ofExcept_eq_ok.2 ⟨named, rfl⟩
  rw [decoder_eq, record, List.append_assoc, Decoder.bind_of_ok (u2_append _ _ _ _), Decoder.bind_of_ok hname,
    Decoder.bind_of_ok (u4_append _ _ _ _), if_pos rfl]

/-- **A body is decoded on its window alone**, and the reader ends up behind the window. -/
theorem codeIn_of_window {nested : Decoder (List Attribute)} {w : Cursor} {t u : DecodeState}
    (h : Decoder.window length.toNat t = .ok w u) :
    codeIn length nested t =
      (ofBody length u.cursor (Answer.toDecoded (Code.decoder nested ⟨w, u.events⟩))).answer := by
  rw [codeIn, Decoder.bind_of_ok h]
  cases hbody : Code.decoder nested ⟨w, u.events⟩ with
  | error e v =>
    rw [Decoder.bind_of_error (inside_eq_error.2 ⟨v, hbody, rfl⟩)]
    rfl
  | ok body v =>
    rw [Decoder.bind_of_ok (inside_eq_ok.2 ⟨v.events, hbody, rfl⟩)]
    by_cases hempty : v.cursor.isEmpty = true
    · simp only [ofBody, Answer.toDecoded, bind, Except.bind, hempty, ↓reduceIte]
      rfl
    · simp only [ofBody, Answer.toDecoded, bind, Except.bind, hempty]
      rfl

theorem runAt_codeIn {nested : Decoder (List Attribute)} {c w : Cursor} {t : DecodeState}
    (hwindow : Decoder.window length.toNat ⟨c, #[]⟩ = .ok w t) :
    (codeIn length nested).runAt c = ofBody length t.cursor ((Code.decoder nested).runAt w) := by
  have hevents : t.events = #[] := (window_eq_ok.1 hwindow).2.2.2
  rw [runAt_eq, codeIn_of_window hwindow, Decoded.toDecoded_answer, runAt_eq, hevents]

theorem runAt_code (named : pool.utf8 index = .ok codeName) (filled : window.length = length.toNat) (offset : Nat)
    (rest : Bytes) :
    (decoder pool).runAt ⟨offset, be2 index ++ be4 length ++ (window ++ rest)⟩ =
      ofBody length ⟨offset + 6 + length.toNat, rest⟩ (bodyIn pool ⟨offset + 6, window⟩) := by
  have hwindow := window_append window (offset + 6) rest #[]
  rw [filled] at hwindow
  rw [bodyIn, ← runAt_codeIn hwindow]
  unfold runAt
  rw [decoder_append named]

theorem ofBody_eq_ok {behind : Cursor} {body : Decoded Code} {a : Attribute} :
    (ofBody length behind body).result = .ok a ↔
    ∃ decoded, body.result = .ok decoded ∧ body.cursor.bytes = [] ∧ a = .code decoded := by
  rw [ofBody, ← Cursor.isEmpty_iff]
  cases body.result with
  | error e => simp [bind, Except.bind]
  | ok decoded =>
    by_cases hempty : body.cursor.isEmpty = true <;> simp [bind, Except.bind, pure, Except.pure, hempty, eq_comm]

/-- A body that failed in itself does not say that it left bytes of its own window. -/
theorem ofBody_eq_mismatch {behind : Cursor} {body : Decoded Code} {name : String} {consumed : Nat}
    (hbody : ∀ name' consumed', body.result ≠ .error (.attributeLengthMismatch name' length consumed')) :
    (ofBody length behind body).result = .error (.attributeLengthMismatch name length consumed) ↔
      name = codeName ∧ ∃ decoded, body.result = .ok decoded ∧ body.cursor.bytes ≠ [] ∧
        consumed = length.toNat - body.cursor.remaining := by
  rw [ofBody, Ne, ← Cursor.isEmpty_iff]
  cases hresult : body.result with
  | error e =>
    have hother : e ≠ .attributeLengthMismatch name length consumed := fun he => hbody name consumed (he ▸ hresult)
    simp [bind, Except.bind, hother]
  | ok decoded =>
    by_cases hempty : body.cursor.isEmpty = true <;>
      simp [bind, Except.bind, pure, Except.pure, throw, throwThe, MonadExceptOf.throw, hempty, eq_comm]

theorem bodyIn_iff (offset : Nat) {k : Nat} {body : Code} (hk : k ≤ window.length) :
    (bodyIn pool ⟨offset, window⟩).result = .ok body ∧
      (bodyIn pool ⟨offset, window⟩).cursor = ⟨offset + k, window.drop k⟩ ↔
      body.Spelled pool (window.take k) :=
  (Code.reads_decoder (reads_listDecoder pool)).runAt_take_iff hk

theorem bodyIn_cursor {offset : Nat} {body : Code} (h : (bodyIn pool ⟨offset, window⟩).result = .ok body) :
    ∃ k, k ≤ window.length ∧ (bodyIn pool ⟨offset, window⟩).cursor = ⟨offset + k, window.drop k⟩ :=
  (Code.composed_decoder (composed_listDecoder pool)).cursor_of_runAt h

/-- The error of a nested window is that of a shorter one. -/
theorem bodyIn_ne_mismatch (filled : window.length = length.toNat) (offset : Nat) (name : String) (consumed : Nat) :
    (bodyIn pool ⟨offset, window⟩).result ≠ .error (.attributeLengthMismatch name length consumed) := by
  intro hresult
  obtain ⟨t, ht⟩ := runAt_result_eq_error.1 hresult
  have hshorter : length.toNat + 18 ≤ window.length := Code.declares_decoder (declares_listDecoder pool) _ _ _ _ _ ht
  omega

/-- **A body is accepted if it fills its window.** -/
theorem ofBody_bodyIn_eq_ok {behind : Cursor} {offset : Nat} {a : Attribute} :
    (ofBody length behind (bodyIn pool ⟨offset, window⟩)).result = .ok a ↔
      ∃ body : Code, a = .code body ∧ body.Spelled pool window := by
  rw [ofBody_eq_ok]
  constructor
  · rintro ⟨body, hresult, hempty, rfl⟩
    obtain ⟨k, hk, hcursor⟩ := bodyIn_cursor hresult
    rw [hcursor] at hempty
    have hspelled := (bodyIn_iff offset hk).1 ⟨hresult, hcursor⟩
    rw [List.take_of_length_le (List.drop_eq_nil_iff.1 hempty)] at hspelled
    exact ⟨body, rfl, hspelled⟩
  · rintro ⟨body, rfl, hspelled⟩
    rw [← List.take_length (l := window)] at hspelled
    obtain ⟨hresult, hcursor⟩ := (bodyIn_iff offset (Nat.le_refl _)).2 hspelled
    refine ⟨body, hresult, ?_, rfl⟩
    rw [hcursor]
    exact List.drop_length

/-- **A body that ends before its window does is a mismatch**, and nothing else is one of this window. -/
theorem ofBody_bodyIn_eq_mismatch (filled : window.length = length.toNat) {behind : Cursor} {offset : Nat}
    {name : String} {consumed : Nat} : (ofBody length behind (bodyIn pool ⟨offset, window⟩)).result =
      .error (.attributeLengthMismatch name length consumed) ↔
    name = codeName ∧ consumed < length.toNat ∧ ∃ body : Code, body.Spelled pool (window.take consumed) := by
  rw [ofBody_eq_mismatch (bodyIn_ne_mismatch filled offset), ← filled]
  have hleft : ∀ k, (Cursor.mk (offset + k) (window.drop k)).remaining = window.length - k := fun k => List.length_drop
  constructor
  · rintro ⟨rfl, body, hresult, hmore, rfl⟩
    obtain ⟨k, hk, hcursor⟩ := bodyIn_cursor hresult
    rw [hcursor] at hmore
    have hlt : k < window.length := Nat.lt_of_not_le fun hle => hmore (List.drop_eq_nil_iff.2 hle)
    have hconsumed : window.length - (bodyIn pool ⟨offset, window⟩).cursor.remaining = k := by
      rw [hcursor, hleft]
      omega
    rw [hconsumed]
    exact ⟨rfl, hlt, body, (bodyIn_iff offset hk).1 ⟨hresult, hcursor⟩⟩
  · rintro ⟨rfl, hlt, body, hspelled⟩
    obtain ⟨hresult, hcursor⟩ := (bodyIn_iff offset (Nat.le_of_lt hlt)).2 hspelled
    refine ⟨rfl, body, hresult, ?_, ?_⟩
    · rw [hcursor]
      exact fun hnil => absurd (List.drop_eq_nil_iff.1 hnil) (Nat.not_le_of_lt hlt)
    · rw [hcursor, hleft]
      omega

/-- **A body is confined to its window.**  The outcome does not depend on what is behind the window, and the reader ends
up there.  The attribute is accepted if the whole window is a body, and it is a mismatch of this window if a part of it
is, which is then the only one. -/
theorem code_confined (pool : ConstantPool) (index : UInt16) (length : UInt32) (window : Bytes)
    (named : pool.utf8 index = .ok "Code") (filled : window.length = length.toNat) (offset : Nat) :
    ∃ outcome events,
      (∀ rest, (decoder pool).runAt ⟨offset, be2 index ++ be4 length ++ (window ++ rest)⟩ =
        ⟨outcome, ⟨offset + 6 + length.toNat, rest⟩, events⟩) ∧
      (∀ a, outcome = .ok a ↔ ∃ body : Code, a = .code body ∧ body.Spelled pool window) ∧
      (∀ name consumed, outcome = .error (.attributeLengthMismatch name length consumed) ↔
        name = "Code" ∧ consumed < length.toNat ∧ ∃ body : Code, body.Spelled pool (window.take consumed)) ∧
      (∀ k k', k ≤ length.toNat → k' ≤ length.toNat → (∃ body : Code, body.Spelled pool (window.take k)) →
        (∃ body : Code, body.Spelled pool (window.take k')) → k = k') := by
  -- the outcome is the same whatever is behind; so let there be nothing
  refine ⟨(ofBody length ⟨offset + 6 + length.toNat, []⟩ (bodyIn pool ⟨offset + 6, window⟩)).result,
    (bodyIn pool ⟨offset + 6, window⟩).events, ?_, ?_, ?_, ?_⟩
  · intro rest
    rw [runAt_code named filled]
    rfl
  · exact fun a => ofBody_bodyIn_eq_ok
  · exact fun name consumed => ofBody_bodyIn_eq_mismatch filled
  · rintro k k' hk hk' ⟨body, hbody⟩ ⟨body', hbody'⟩
    have hend := ((bodyIn_iff offset (filled ▸ hk)).2 hbody).2
    have hend' := ((bodyIn_iff offset (filled ▸ hk')).2 hbody').2
    exact Nat.add_left_cancel (congrArg Cursor.offset (hend.symm.trans hend'))

/-- A pool whose only constant is the name of method bodies. -/
def codePool : ConstantPool := ⟨2, #[none, some (.utf8 (.ofString "Code"))]⟩

/-- A body of twelve bytes with nothing in it, and one byte behind it. -/
def looseWindow : Bytes := [0, 0, 0, 0, 0, 0, 0, 0, 0, 0, 0, 0, 7]

/-- The byte behind the body makes it a mismatch, whatever is behind the window. -/
theorem looseWindow_mismatch : codePool.utf8 1 = .ok "Code" ∧ ∃ events, ∀ rest,
    (decoder codePool).runAt ⟨100, be2 1 ++ be4 13 ++ (looseWindow ++ rest)⟩ =
      ⟨.error (.attributeLengthMismatch "Code" 13 12), ⟨119, rest⟩, events⟩ := by
  have hname : codePool.utf8 1 = .ok "Code" := ConstantPool.utf8_eq_ok.2 rfl
  have hfront : Code.Front ⟨0, 0, #[], []⟩ [0, 0, 0, 0, 0, 0, 0, 0, 0, 0] :=
    @Code.Front.mk ⟨0, 0, #[], []⟩ 0 _ rfl (@Counted.mk _ _ [] 0 _ rfl .nil)
  have hspelled : ∃ body : Code, body.Spelled codePool (looseWindow.take 12) :=
    ⟨⟨0, 0, #[], []⟩, _, [0, 0], [], hfront, @Counted.mk _ _ [] 0 _ rfl .nil, rfl⟩
  obtain ⟨outcome, events, hrun, -, hmismatch, -⟩ := code_confined codePool 1 13 looseWindow hname rfl 100
  rw [(hmismatch "Code" 12).2 ⟨rfl, by decide, hspelled⟩] at hrun
  exact ⟨hname, events, hrun⟩

end Attribute

end Jvm
