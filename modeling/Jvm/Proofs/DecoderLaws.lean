import Jvm.Decoder.Basic
/-!
# What a decoder can do

The laws that every later proof about decoders rests on: when the primitive reads succeed and fail, how a composed
decoder splits into its parts, and what a reader has taken between two cursors.  Nothing behind this module opens the
definition of a primitive read.

A decoder is *composed* when it is built from primitive reads, reports and windows alone.  What holds of the primitive
reads and survives composition then holds of every decoder of a class file, by one induction (`Composed`).  It is
*plain* when it has neither reports nor windows in it (`Plain`).
-/
namespace Jvm

namespace Cursor

/-- Where the bytes before a cursor end: the end of the buffer, or of the window that it was cut out as. -/
def stop (c : Cursor) : Nat := c.offset + c.remaining

/-- What a reader has taken between two of its cursors. -/
def Took (c : Cursor) (taken : Bytes) (c' : Cursor) : Prop :=
  c.bytes = taken ++ c'.bytes ∧ c'.offset = c.offset + taken.length

namespace Took

variable {c c₁ c₂ : Cursor} {a b : Bytes}

@[simp] theorem nil_iff : c.Took [] c₁ ↔ c₁ = c := by
  constructor
  · rintro ⟨hb, ho⟩
    exact Cursor.ext (by simpa using ho) (by simpa using hb.symm)
  · rintro rfl
    exact ⟨rfl, rfl⟩

theorem refl (c : Cursor) : c.Took [] c := nil_iff.2 rfl

theorem trans (h₁ : c.Took a c₁) (h₂ : c₁.Took b c₂) : c.Took (a ++ b) c₂ := by
  refine ⟨by rw [h₁.1, h₂.1, List.append_assoc], ?_⟩
  rw [h₂.2, h₁.2, List.length_append, Nat.add_assoc]

/-- **A reader passes every place between two cursors.** -/
theorem append_iff : c.Took (a ++ b) c₂ ↔ ∃ c₁, c.Took a c₁ ∧ c₁.Took b c₂ := by
  constructor
  · rintro ⟨hb, ho⟩
    refine ⟨⟨c.offset + a.length, b ++ c₂.bytes⟩, ⟨by rw [hb, List.append_assoc], rfl⟩, rfl, ?_⟩
    rw [ho, List.length_append, Nat.add_assoc]
  · rintro ⟨c₁, h₁, h₂⟩
    exact h₁.trans h₂

theorem remaining (h : c.Took a c₁) : c.remaining = a.length + c₁.remaining := by
  rw [Cursor.remaining, h.1, List.length_append]
  rfl

theorem stop (h : c.Took a c₁) : c₁.stop = c.stop := by
  have ho := h.2
  have hr := h.remaining
  unfold Cursor.stop
  omega

theorem offset_le (h : c.Took a c₁) : c.offset ≤ c₁.offset := by
  rw [h.2]
  exact Nat.le_add_right _ _

/-- How far a reader came determines where it stands and what it took. -/
theorem unique (h₁ : c.Took a c₁) (h₂ : c.Took b c₂) (h : a.length = b.length) : a = b ∧ c₁ = c₂ := by
  obtain ⟨rfl, hrest⟩ := List.append_inj (h₁.1.symm.trans h₂.1) h
  exact ⟨rfl, Cursor.ext (h₁.2.trans h₂.2.symm) hrest⟩

end Took

end Cursor

namespace Decoder

variable {α β : Type}

/-! ## Composition -/

theorem bind_eq_ok {d : Decoder α} {f : α → Decoder β} {s t : DecodeState} {b : β} :
    (d >>= f) s = .ok b t ↔ ∃ a u, d s = .ok a u ∧ f a u = .ok b t := by
  show EStateM.bind d f s = _ ↔ _
  unfold EStateM.bind
  cases d s with
  | ok a u => simp [and_assoc]
  | error e u => simp

theorem bind_eq_error {d : Decoder α} {f : α → Decoder β} {s t : DecodeState} {e : DecodeError} :
    (d >>= f) s = .error e t ↔ d s = .error e t ∨ ∃ a u, d s = .ok a u ∧ f a u = .error e t := by
  show EStateM.bind d f s = _ ↔ _
  unfold EStateM.bind
  cases d s with
  | ok a u => simp [and_assoc]
  | error e u => simp

@[simp] theorem pure_eq_ok {a b : α} {s t : DecodeState} : (pure a : Decoder α) s = .ok b t ↔ b = a ∧ t = s := by
  show EStateM.Result.ok a s = .ok b t ↔ _
  simp [eq_comm]

@[simp] theorem pure_ne_error {a : α} {s t : DecodeState} {e : DecodeError} : (pure a : Decoder α) s ≠ .error e t := by
  show EStateM.Result.ok a s ≠ .error e t
  simp

@[simp] theorem throw_ne_ok {a : α} {s t : DecodeState} {e : DecodeError} : (throw e : Decoder α) s ≠ .ok a t := by
  show EStateM.Result.error e s ≠ .ok a t
  simp

@[simp] theorem throw_eq_error {s t : DecodeState} {e e' : DecodeError} :
    (throw e : Decoder α) s = .error e' t ↔ e' = e ∧ t = s := by
  show EStateM.Result.error e s = .error e' t ↔ _
  simp [eq_comm]

theorem ofExcept_eq_ok {r : Except DecodeError α} {a : α} {s t : DecodeState} :
    ofExcept r s = .ok a t ↔ r = .ok a ∧ t = s := by
  cases r <;> simp [ofExcept, eq_comm]

theorem ofExcept_eq_error {r : Except DecodeError α} {e : DecodeError} {s t : DecodeState} :
    ofExcept r s = .error e t ↔ r = .error e ∧ t = s := by
  cases r <;> simp [ofExcept, eq_comm]

theorem runAt_result_eq_ok {d : Decoder α} {c : Cursor} {a : α} :
    (d.runAt c).result = .ok a ↔ ∃ t, d ⟨c, #[]⟩ = .ok a t := by
  unfold runAt
  cases d ⟨c, #[]⟩ with
  | ok b t => simp
  | error e t => simp

theorem runAt_result_eq_error {d : Decoder α} {c : Cursor} {e : DecodeError} :
    (d.runAt c).result = .error e ↔ ∃ t, d ⟨c, #[]⟩ = .error e t := by
  unfold runAt
  cases d ⟨c, #[]⟩ with
  | ok b t => simp
  | error e t => simp

/-! ## Primitive reads -/

theorem bytes_eq_ok {n : Nat} {s t : DecodeState} {bs : Bytes} :
    bytes n s = .ok bs t ↔ bs.length = n ∧ s.cursor.Took bs t.cursor ∧ t.events = s.events := by
  unfold bytes
  rw [Cursor.split?_eq]
  by_cases h : n ≤ s.cursor.remaining
  · rw [if_pos h]
    have hlen : (s.cursor.bytes.take n).length = n := List.length_take_of_le h
    constructor
    · intro ht
      cases ht
      exact ⟨hlen, ⟨(List.take_append_drop n _).symm, by rw [hlen]⟩, rfl⟩
    · rintro ⟨hn, hc, he⟩
      have hself : s.cursor.Took (s.cursor.bytes.take n) ⟨s.cursor.offset + n, s.cursor.bytes.drop n⟩ :=
        ⟨(List.take_append_drop n _).symm, by rw [hlen]⟩
      obtain ⟨rfl, hcur⟩ := hself.unique hc (hlen.trans hn.symm)
      simp only [EStateM.Result.ok.injEq, true_and]
      exact DecodeState.ext hcur he.symm
  · rw [if_neg h]
    constructor
    · intro ht
      cases ht
    · rintro ⟨hn, hc, -⟩
      have := hc.remaining
      omega

theorem bytes_eq_error {n : Nat} {s t : DecodeState} {e : DecodeError} :
    bytes n s = .error e t ↔
      s.cursor.remaining < n ∧ e = .truncatedInput s.cursor.offset n s.cursor.remaining ∧ t = s := by
  unfold bytes
  rw [Cursor.split?_eq]
  by_cases h : n ≤ s.cursor.remaining
  · rw [if_pos h]
    constructor
    · intro ht
      cases ht
    · rintro ⟨hlt, -⟩
      omega
  · rw [if_neg h]
    simp only [EStateM.Result.error.injEq, Nat.lt_of_not_le h, true_and]
    exact and_congr eq_comm eq_comm

/-- **A window is the bytes that it covers, and where they begin.** -/
theorem window_eq (n : Nat) : window n = (do
    let start ← offset
    let bs ← bytes n
    return ⟨start, bs⟩) := by
  funext s
  show window n s = EStateM.bind (bytes n) (fun bs => pure ⟨s.cursor.offset, bs⟩) s
  simp only [window, bytes, EStateM.bind, Cursor.split?_eq]
  by_cases h : n ≤ s.cursor.remaining
  · rw [if_pos h]
    rfl
  · rw [if_neg h]

theorem window_eq_ok {n : Nat} {s t : DecodeState} {w : Cursor} :
    window n s = .ok w t ↔
      w.remaining = n ∧ w.offset = s.cursor.offset ∧ s.cursor.Took w.bytes t.cursor ∧ t.events = s.events := by
  rw [window_eq, bind_eq_ok]
  simp only [offset, EStateM.Result.ok.injEq, bind_eq_ok, pure_eq_ok, bytes_eq_ok]
  constructor
  · rintro ⟨_, _, ⟨rfl, rfl⟩, bs, u, ⟨hlen, hc, he⟩, rfl, rfl⟩
    exact ⟨hlen, rfl, hc, he⟩
  · rintro ⟨hlen, ho, hc, he⟩
    exact ⟨_, _, ⟨rfl, rfl⟩, w.bytes, t, ⟨hlen, hc, he⟩, Cursor.ext ho rfl, rfl⟩

theorem window_eq_error {n : Nat} {s t : DecodeState} {e : DecodeError} :
    window n s = .error e t ↔
      s.cursor.remaining < n ∧ e = .truncatedInput s.cursor.offset n s.cursor.remaining ∧ t = s := by
  rw [window_eq, bind_eq_error]
  simp only [offset, reduceCtorEq, false_or, EStateM.Result.ok.injEq, bind_eq_error, bytes_eq_error, pure_ne_error,
    and_false, exists_false, or_false]
  constructor
  · rintro ⟨_, _, ⟨rfl, rfl⟩, h⟩
    exact h
  · intro h
    exact ⟨_, _, ⟨rfl, rfl⟩, h⟩

/-! ## Windows -/

theorem inside_eq_ok {w c : Cursor} {d : Decoder α} {s t : DecodeState} {a : α} :
    inside w d s = .ok (a, c) t ↔ ∃ events, d ⟨w, s.events⟩ = .ok a ⟨c, events⟩ ∧ t = ⟨s.cursor, events⟩ := by
  unfold inside
  cases d ⟨w, s.events⟩ with
  | ok b u =>
    simp only [EStateM.Result.ok.injEq, Prod.mk.injEq]
    constructor
    · rintro ⟨⟨rfl, rfl⟩, rfl⟩
      exact ⟨u.events, ⟨rfl, rfl⟩, rfl⟩
    · rintro ⟨events, ⟨rfl, rfl⟩, rfl⟩
      exact ⟨⟨rfl, rfl⟩, rfl⟩
  | error e u => simp

theorem inside_eq_error {w : Cursor} {d : Decoder α} {s t : DecodeState} {e : DecodeError} :
    inside w d s = .error e t ↔ ∃ u, d ⟨w, s.events⟩ = .error e u ∧ t = ⟨s.cursor, u.events⟩ := by
  unfold inside
  cases d ⟨w, s.events⟩ with
  | ok b u => simp
  | error e' u =>
    simp only [EStateM.Result.error.injEq]
    constructor
    · rintro ⟨rfl, rfl⟩
      exact ⟨u, ⟨rfl, rfl⟩, rfl⟩
    · rintro ⟨_, ⟨rfl, rfl⟩, rfl⟩
      exact ⟨rfl, rfl⟩

/-! ## Repetition -/

theorem times_go_eq (d : Decoder α) : ∀ (n : Nat) (seen : List α),
    times.go d n seen = (do
      let xs ← times d n
      return seen.reverse ++ xs)
  | 0, seen => by simp [times, times.go]
  | n + 1, seen => by
    have hone : ∀ a, times.go d n [a] = (do
        let xs ← times d n
        return a :: xs) := fun a => by rw [times_go_eq d n [a]]; rfl
    have hmore : ∀ a, times.go d n (a :: seen) = (do
        let xs ← times d n
        return seen.reverse ++ a :: xs) := fun a => by rw [times_go_eq d n (a :: seen)]; simp
    simp only [times, times.go, hmore] at hone ⊢
    simp only [hone, bind_assoc, pure_bind]

/-- **Repetition, one item at a time.** -/
theorem times_succ (d : Decoder α) (n : Nat) : times d (n + 1) = (do
    let x ← d
    let xs ← times d n
    return x :: xs) := by
  have hone : ∀ x, times.go d n [x] = (do
      let xs ← times d n
      return x :: xs) := fun x => by rw [times_go_eq d n [x]]; rfl
  simp only [times, times.go] at hone ⊢
  simp only [hone]

/-! ## Plain and composed decoders -/

/-- Built from primitive reads alone. -/
inductive Plain : {α : Type} → Decoder α → Prop
  | pure {α : Type} (a : α) : Plain (Pure.pure a)
  | throw {α : Type} (e : DecodeError) : Plain (MonadExcept.throw e : Decoder α)
  | offset : Plain Decoder.offset
  | bytes (n : Nat) : Plain (Decoder.bytes n)
  | bind {α β : Type} {d : Decoder α} {f : α → Decoder β} (first : Plain d) (rest : ∀ a, Plain (f a)) : Plain (d >>= f)

/-- Built from primitive reads, reports and windows alone. -/
inductive Composed : {α : Type} → Decoder α → Prop
  | pure {α : Type} (a : α) : Composed (Pure.pure a)
  | throw {α : Type} (e : DecodeError) : Composed (MonadExcept.throw e : Decoder α)
  | report (e : DecodeEvent) : Composed (Decoder.report e)
  | offset : Composed Decoder.offset
  | bytes (n : Nat) : Composed (Decoder.bytes n)
  | bind {α β : Type} {d : Decoder α} {f : α → Decoder β} (first : Composed d) (rest : ∀ a, Composed (f a)) :
    Composed (d >>= f)
  | inside {α : Type} (w : Cursor) {d : Decoder α} (inner : Composed d) : Composed (Decoder.inside w d)

namespace Plain

theorem number (n : Nat) : Plain (Decoder.number n) := (bytes n).bind fun _ => .pure _

theorem u1 : Plain Decoder.u1 := (number 1).bind fun _ => .pure _

theorem u2 : Plain Decoder.u2 := (number 2).bind fun _ => .pure _

theorem u4 : Plain Decoder.u4 := (number 4).bind fun _ => .pure _

theorem u8 : Plain Decoder.u8 := (number 8).bind fun _ => .pure _

theorem i4 : Plain Decoder.i4 := u4.bind fun _ => .pure _

theorem i8 : Plain Decoder.i8 := u8.bind fun _ => .pure _

theorem ofExcept (r : Except DecodeError α) : Plain (Decoder.ofExcept r) := by
  cases r with
  | ok a => exact .pure a
  | error e => exact .throw e

theorem window (n : Nat) : Plain (Decoder.window n) := by
  rw [window_eq]
  exact offset.bind fun _ => (bytes n).bind fun _ => .pure _

theorem times {d : Decoder α} (h : Plain d) : ∀ n, Plain (Decoder.times d n)
  | 0 => .pure _
  | n + 1 => by
    rw [times_succ]
    exact h.bind fun _ => (times h n).bind fun _ => .pure _

theorem counted {d : Decoder α} (h : Plain d) : Plain (Decoder.counted d) := u2.bind fun n => h.times n.toNat

theorem composed {d : Decoder α} (h : Plain d) : Composed d := by
  induction h with
  | pure a => exact .pure a
  | throw e => exact .throw e
  | offset => exact .offset
  | bytes n => exact .bytes n
  | bind _ _ ihd ihf => exact .bind ihd ihf

end Plain

namespace Composed

theorem number (n : Nat) : Composed (Decoder.number n) := (Plain.number n).composed

theorem u1 : Composed Decoder.u1 := Plain.u1.composed

theorem u2 : Composed Decoder.u2 := Plain.u2.composed

theorem u4 : Composed Decoder.u4 := Plain.u4.composed

theorem u8 : Composed Decoder.u8 := Plain.u8.composed

theorem i4 : Composed Decoder.i4 := Plain.i4.composed

theorem i8 : Composed Decoder.i8 := Plain.i8.composed

theorem ofExcept (r : Except DecodeError α) : Composed (Decoder.ofExcept r) := (Plain.ofExcept r).composed

theorem window (n : Nat) : Composed (Decoder.window n) := (Plain.window n).composed

theorem times {d : Decoder α} (h : Composed d) : ∀ n, Composed (Decoder.times d n)
  | 0 => .pure _
  | n + 1 => by
    rw [times_succ]
    exact h.bind fun _ => (times h n).bind fun _ => .pure _

theorem counted {d : Decoder α} (h : Composed d) : Composed (Decoder.counted d) := u2.bind fun n => h.times n.toNat

/-- **A composed decoder only moves forward**, whether it succeeds or fails. -/
theorem took {d : Decoder α} (h : Composed d) (s : DecodeState) :
    (∀ a t, d s = .ok a t → ∃ taken, s.cursor.Took taken t.cursor) ∧
      (∀ e t, d s = .error e t → ∃ taken, s.cursor.Took taken t.cursor) := by
  induction h generalizing s with
  | pure a => exact ⟨fun b t ht => ⟨[], by simp [(pure_eq_ok.1 ht).2]⟩, fun e t ht => absurd ht pure_ne_error⟩
  | throw e => exact ⟨fun b t ht => absurd ht throw_ne_ok, fun e t ht => ⟨[], by simp [(throw_eq_error.1 ht).2]⟩⟩
  | report e => exact ⟨fun b t ht => by cases ht; exact ⟨[], by simp⟩, fun e t ht => by cases ht⟩
  | offset => exact ⟨fun b t ht => by cases ht; exact ⟨[], by simp⟩, fun e t ht => by cases ht⟩
  | bytes n =>
    refine ⟨fun bs t ht => ⟨bs, (bytes_eq_ok.1 ht).2.1⟩, fun e t ht => ⟨[], ?_⟩⟩
    rw [(bytes_eq_error.1 ht).2.2]
    simp
  | @bind α β d f _ _ ihd ihf =>
    constructor
    · intro b t ht
      obtain ⟨a, u, hd, hf⟩ := bind_eq_ok.1 ht
      obtain ⟨x, hx⟩ := (ihd s).1 a u hd
      obtain ⟨y, hy⟩ := (ihf a u).1 b t hf
      exact ⟨x ++ y, hx.trans hy⟩
    · intro e t ht
      rcases bind_eq_error.1 ht with hd | ⟨a, u, hd, hf⟩
      · exact (ihd s).2 e t hd
      · obtain ⟨x, hx⟩ := (ihd s).1 a u hd
        obtain ⟨y, hy⟩ := (ihf a u).2 e t hf
        exact ⟨x ++ y, hx.trans hy⟩
  | inside w _ _ =>
    constructor
    · rintro ⟨a, c⟩ t ht
      obtain ⟨events, -, rfl⟩ := inside_eq_ok.1 ht
      exact ⟨[], by simp⟩
    · intro e t ht
      obtain ⟨u, -, rfl⟩ := inside_eq_error.1 ht
      exact ⟨[], by simp⟩

end Composed

end Decoder

end Jvm
