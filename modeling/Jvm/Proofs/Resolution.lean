import Jvm.Proofs.TextConstants
/-!
# Which slot is at fault

Resolving an index looks at up to six slots, one after the other, and each of them can be at fault in three ways.  What
can be wrong with a slot is said here of that slot alone (`FaultAt`), and the slots that are looked at are listed in
their order (`memberTrail` and the like).  Resolution then succeeds exactly if the slots hold what is asked of them, and
it fails with the error of **the first slot at fault**: `ConstantPool.resolution_exact`.

References may go forward, backward, to themselves or nowhere.  None of this matters: a trail has an end because what is
asked of a slot depends on how far the trail has come.
-/
namespace Jvm

theorem InOrder.exists_of_mem {α : Type} {item : Spelling α} {xs : List α} {bytes : Bytes} (h : InOrder item xs bytes) :
    ∀ x ∈ xs, ∃ own, item x own := by
  induction h with
  | nil => exact fun _ hx => nomatch hx
  | cons head _ ih => exact List.forall_mem_cons.2 ⟨⟨_, head⟩, ih⟩

/-! ## Surrogates without a partner -/

namespace Text

open CodePoint

/-- There is a surrogate in the text that is not one half of a pair. -/
def HasLoneSurrogate (t : Text) : Prop :=
  ∃ front c behind, t = front ++ c :: behind ∧ c.isSurrogate = true ∧
    (c.isHigh = true → ∀ d ∈ behind.head?, d.isLow = false) ∧ (c.isLow = true → ∀ d ∈ front.getLast?, d.isHigh = false)

theorem unpaired_of_merges {t u : Text} (h : Merges t u) (hsame : u = t) : Unpaired t := by
  induction h with
  | nil => exact fun front c d behind ht => by simp at ht
  | @pair c d _ _ high low _ _ =>
    -- what a pair is joined to is no surrogate any more
    have hval := val_ofPair high low
    have hhigh := isHigh_iff.1 high
    rw [(List.cons.inj hsame).1] at hval
    omega
  | single alone _ ih =>
    intro front c d behind ht hhigh
    cases front with
    | nil =>
      obtain ⟨rfl, rfl⟩ := List.cons.inj ht
      exact alone hhigh d rfl
    | cons _ front => exact ih (List.cons.inj hsame).2 front c d behind (List.cons.inj ht).2 hhigh

theorem hasLoneSurrogate_of_unpaired {t : Text} (h : Unpaired t) (hsurrogate : ∃ c ∈ t, c.isSurrogate = true) :
    t.HasLoneSurrogate := by
  obtain ⟨c, hc, htrue⟩ := hsurrogate
  obtain ⟨front, behind, rfl⟩ := List.append_of_mem hc
  refine ⟨front, c, behind, rfl, htrue, fun hhigh d hd => ?_, fun hlow d hd => ?_⟩
  · obtain ⟨rest, rfl⟩ := List.head?_eq_some_iff.1 hd
    exact h front c d rest rfl hhigh
  · obtain ⟨rest, rfl⟩ := List.getLast?_eq_some_iff.1 hd
    rw [Bool.eq_false_iff]
    intro hhigh
    have hother := h rest d c behind (by simp) hhigh
    rw [hlow] at hother
    cases hother

end Text

namespace ConstantPool

open Constant

/-! ## What is asked of a slot -/

/-- What a slot can be asked for: a text, a text that is a string, or a constant that refers on to others. -/
inductive Demand where
  | text
  | name
  | string
  | classRef
  | nameAndType
  | member
  deriving DecidableEq

namespace Demand

/-- The constants that meet a demand, by their kind. -/
def takes : Demand → Constant → Bool
  | text, .utf8 _ | name, .utf8 _ | string, .string _ | classRef, .classRef _ | nameAndType, .nameAndType _ _
  | member, .member _ _ _ => true
  | _, _ => false

/-- What is demanded, as error messages have it. -/
def expected : Demand → String
  | text | name => "Utf8"
  | string => "String"
  | classRef => "Class"
  | nameAndType => "NameAndType"
  | member => "member reference"

/-- A name has to be a text like any other. -/
theorem takes_name (c : Constant) : name.takes c = text.takes c := by cases c <;> rfl

theorem takes_text {c : Constant} : text.takes c = true ↔ ∃ t, c = .utf8 t := by cases c <;> simp [takes]

end Demand

/-- A slot, and what is asked of it. -/
structure Query where
  wanted : Demand
  index : UInt16
  deriving DecidableEq

/-- The slot holds this constant. -/
def Holds (pool : ConstantPool) (index : UInt16) (c : Constant) : Prop := pool.slots[index.toNat]? = some (some c)

/-- There is no constant at the index: it is out of range, or its slot is empty, as slot zero always is. -/
def Vacant (pool : ConstantPool) (index : UInt16) : Prop :=
  pool.slots.size ≤ index.toNat ∨ pool.slots[index.toNat]? = some none

/-- The slot is at fault, and this error says how. -/
inductive FaultAt (pool : ConstantPool) : Query → DecodeError → Prop
  | vacant {wanted : Demand} {index : UInt16} (nothing : pool.Vacant index) :
    FaultAt pool ⟨wanted, index⟩ (.invalidConstantIndex index)
  | otherKind {wanted : Demand} {index : UInt16} {c : Constant} (held : pool.Holds index c)
    (other : wanted.takes c = false) :
    FaultAt pool ⟨wanted, index⟩ (.wrongConstantKind index wanted.expected c.kindName)
  | surrogate {index : UInt16} {t : Text} (held : pool.Holds index (.utf8 t)) (broken : ∃ p ∈ t, p.isSurrogate = true) :
    FaultAt pool ⟨.name, index⟩ (.notUnicode index)

/-- Of the slots that are asked in turn, the first one at fault is so in this way. -/
inductive FirstFault (pool : ConstantPool) : List Query → DecodeError → Prop
  | here {q : Query} {rest : List Query} {e : DecodeError} (fault : FaultAt pool q e) : FirstFault pool (q :: rest) e
  | later {q : Query} {rest : List Query} {e : DecodeError} (sound : ∀ e', ¬ FaultAt pool q e')
    (fault : FirstFault pool rest e) :
    FirstFault pool (q :: rest) e

/-! ## The slots in their order -/

/-- The slots of a class: its own, and that of its name. -/
def classTrail (pool : ConstantPool) (index : UInt16) : List Query :=
  ⟨.classRef, index⟩ :: match pool.slots[index.toNat]? with
    | some (some (.classRef k)) => [⟨.name, k⟩]
    | _ => []

/-- The slots of a string: its own, and that of its text. -/
def stringTrail (pool : ConstantPool) (index : UInt16) : List Query :=
  ⟨.string, index⟩ :: match pool.slots[index.toNat]? with
    | some (some (.string k)) => [⟨.text, k⟩]
    | _ => []

/-- The slots of a name and a descriptor: their own, that of the name and that of the descriptor. -/
def signatureTrail (pool : ConstantPool) (index : UInt16) : List Query :=
  ⟨.nameAndType, index⟩ :: match pool.slots[index.toNat]? with
    | some (some (.nameAndType a d)) => [⟨.name, a⟩, ⟨.name, d⟩]
    | _ => []

/-- The slots of a member reference: its own, those of the member's name and descriptor, and those of the class. -/
def memberTrail (pool : ConstantPool) (index : UInt16) : List Query :=
  ⟨.member, index⟩ :: match pool.slots[index.toNat]? with
    | some (some (.member _ c n)) => pool.signatureTrail n ++ pool.classTrail c
    | _ => []

section Faults

variable {pool : ConstantPool} {q : Query} {qs rest : List Query} {e : DecodeError}

theorem firstFault_append : FirstFault pool (qs ++ rest) e ↔
    FirstFault pool qs e ∨ (∀ q ∈ qs, ∀ e', ¬ FaultAt pool q e') ∧ FirstFault pool rest e := by
  induction qs with
  | nil =>
    constructor
    · exact fun h => .inr ⟨fun _ hq => absurd hq List.not_mem_nil, h⟩
    · rintro (h | ⟨-, h⟩)
      · cases h
      · exact h
  | cons q qs ih =>
    rw [List.cons_append]
    constructor
    · intro h
      cases h with
      | here fault => exact .inl (.here fault)
      | later sound fault =>
        rcases ih.1 fault with h | ⟨hsound, h⟩
        · exact .inl (.later sound h)
        · exact .inr ⟨List.forall_mem_cons.2 ⟨sound, hsound⟩, h⟩
    · rintro (h | ⟨hsound, h⟩)
      · cases h with
        | here fault => exact .here fault
        | later sound fault => exact .later sound (ih.2 (.inl fault))
      · obtain ⟨sound, hsound⟩ := List.forall_mem_cons.1 hsound
        exact .later sound (ih.2 (.inr ⟨hsound, h⟩))

theorem firstFault_singleton : FirstFault pool [q] e ↔ FaultAt pool q e := by
  constructor
  · intro h
    cases h with
    | here fault => exact fault
    | later _ fault => cases fault
  · exact .here

/-- If no slot is the first at fault then none is. -/
theorem sound_of_no_first (h : ∀ e, ¬ FirstFault pool qs e) : ∀ q ∈ qs, ∀ e, ¬ FaultAt pool q e := by
  induction qs with
  | nil => exact fun _ hq => nomatch hq
  | cons q qs ih =>
    have hsound : ∀ e, ¬ FaultAt pool q e := fun e fault => h e (.here fault)
    exact List.forall_mem_cons.2 ⟨hsound, ih fun e fault => h e (.later hsound fault)⟩

theorem not_sound_of_firstFault (h : FirstFault pool qs e) : ¬ ∀ q ∈ qs, ∀ e', ¬ FaultAt pool q e' := by
  induction h with
  | here fault => exact fun hsound => hsound _ List.mem_cons_self _ fault
  | later _ _ ih => exact fun hsound => ih (List.forall_mem_cons.1 hsound).2

/-! ## Answers that follow a trail -/

variable {α β : Type}

/-- The answer is an error exactly if a slot of the trail is at fault, and then it is that of the first one. -/
def Follows (pool : ConstantPool) (answer : Except DecodeError α) (trail : List Query) : Prop :=
  ∀ e, answer = .error e ↔ FirstFault pool trail e

theorem except_bind_eq_ok {x : Except DecodeError α} {f : α → Except DecodeError β} {b : β} :
    (x >>= f) = .ok b ↔ ∃ a, x = .ok a ∧ f a = .ok b := by
  cases x <;> simp [bind, Except.bind]

theorem Follows.pure (a : α) : Follows pool (Pure.pure a) [] := fun e => by
  constructor
  · exact fun h => nomatch h
  · exact fun h => nomatch h

/-- **One trail behind another**: the second is entered only if nothing on the first is at fault. -/
theorem Follows.bind {x : Except DecodeError α} {f : α → Except DecodeError β} (hx : Follows pool x qs)
    (hf : ∀ a, x = .ok a → Follows pool (f a) rest) : Follows pool (x >>= f) (qs ++ rest) := by
  intro e
  rw [firstFault_append]
  cases hresult : x with
  | ok a =>
    have hnone : ∀ e, ¬ FirstFault pool qs e := fun e fault => by
      have herror := (hx e).2 fault
      rw [hresult] at herror
      cases herror
    have hrest : f a = .error e ↔ FirstFault pool rest e := hf a hresult e
    constructor
    · exact fun h => .inr ⟨sound_of_no_first hnone, hrest.1 h⟩
    · rintro (h | ⟨-, h⟩)
      · exact absurd h (hnone e)
      · exact hrest.2 h
  | error e₀ =>
    have hfirst := (hx e₀).1 hresult
    constructor
    · intro h
      obtain rfl : e₀ = e := Except.error.inj h
      exact .inl hfirst
    · rintro (h | ⟨hsound, -⟩)
      · rw [← hresult, (hx e).2 h]
        rfl
      · exact absurd hsound (not_sound_of_firstFault hfirst)

theorem Follows.cons {x : Except DecodeError α} {f : α → Except DecodeError β} (hx : Follows pool x [q])
    (hf : ∀ a, x = .ok a → Follows pool (f a) rest) : Follows pool (x >>= f) (q :: rest) := hx.bind hf

theorem Follows.map {x : Except DecodeError α} (hx : Follows pool x qs) (g : α → β) :
    Follows pool (x >>= fun a => Pure.pure (g a)) qs := by
  rw [← List.append_nil qs]
  exact hx.bind fun a _ => .pure (g a)

/-! ## One slot -/

variable {index : UInt16}

theorem vacant_or_holds (pool : ConstantPool) (index : UInt16) : pool.Vacant index ∨ ∃ c, pool.Holds index c := by
  unfold Vacant Holds
  rw [← Array.getElem?_eq_none_iff]
  rcases pool.slots[index.toNat]? with _ | _ | c <;> simp

theorem Holds.unique {c c' : Constant} (h : pool.Holds index c) (h' : pool.Holds index c') : c = c' :=
  Option.some.inj (Option.some.inj (h.symm.trans h'))

theorem Holds.not_vacant {c : Constant} (h : pool.Holds index c) : ¬ pool.Vacant index := by
  rintro (hsize | hnone)
  · have hslot := h.symm.trans (Array.getElem?_eq_none hsize)
    cases hslot
  · have hslot := h.symm.trans hnone
    cases hslot

theorem select_of_vacant (h : pool.Vacant index) (expected : String) (pick : Constant → Option α) :
    pool.select index expected pick = .error (.invalidConstantIndex index) := by
  have hget : pool.get index = .error (.invalidConstantIndex index) :=
    get_of_not_ok fun ⟨c, hc⟩ => Holds.not_vacant (get_eq_ok.1 hc) h
  rw [select, hget]
  rfl

theorem select_of_holds {c : Constant} (h : pool.Holds index c) (expected : String) (pick : Constant → Option α) :
    pool.select index expected pick = (pick c).elim (.error (.wrongConstantKind index expected c.kindName)) .ok := by
  rw [select, get_eq_ok.2 h, ← name_tag]
  cases hc : pick c <;> simp only [bind, Except.bind, hc] <;> rfl

theorem select_eq_ok {expected : String} {pick : Constant → Option α} {a : α} :
    pool.select index expected pick = .ok a ↔ ∃ c, pool.Holds index c ∧ pick c = some a := by
  rcases vacant_or_holds pool index with hvacant | ⟨c, hc⟩
  · rw [select_of_vacant hvacant]
    exact iff_of_false (by simp) fun ⟨_, held, _⟩ => held.not_vacant hvacant
  · rw [select_of_holds hc]
    constructor
    · intro h
      cases hpick : pick c with
      | none => simp [hpick] at h
      | some b =>
        simp only [hpick, Option.elim_some, Except.ok.injEq] at h
        exact ⟨c, hc, by rw [h] at hpick; exact hpick⟩
    · rintro ⟨c', hc', hpick⟩
      rw [hc.unique hc', hpick]
      rfl

/-- **Selection looks at one slot**, whatever it picks from the constants that it takes. -/
theorem follows_select (wanted : Demand) (hname : wanted ≠ .name) {pick : Constant → Option α}
    (hpick : ∀ c, pick c = none ↔ wanted.takes c = false) :
    Follows pool (pool.select index wanted.expected pick) [⟨wanted, index⟩] := by
  intro e
  rw [firstFault_singleton]
  constructor
  · intro h
    rcases vacant_or_holds pool index with hvacant | ⟨c, hc⟩
    · rw [select_of_vacant hvacant] at h
      cases h
      exact .vacant hvacant
    · rw [select_of_holds hc] at h
      cases hother : pick c with
      | some a => simp [hother] at h
      | none =>
        simp only [hother, Option.elim_none, Except.error.injEq] at h
        obtain rfl := h
        exact .otherKind hc ((hpick c).1 hother)
  · intro h
    cases h with
    | vacant nothing => exact select_of_vacant nothing _ _
    | otherKind held other =>
      rw [select_of_holds held, (hpick _).2 other]
      rfl
    | surrogate _ _ => exact absurd rfl hname

/-- What was picked from a slot says how the trail goes on. -/
theorem follows_select_bind (wanted : Demand) (hname : wanted ≠ .name) {pick : Constant → Option α}
    {f : α → Except DecodeError β} (hpick : ∀ c, pick c = none ↔ wanted.takes c = false)
    (hrest : ∀ c a, pool.Holds index c → pick c = some a → Follows pool (f a) rest) :
    Follows pool (pool.select index wanted.expected pick >>= f) (⟨wanted, index⟩ :: rest) := by
  refine (follows_select wanted hname hpick).cons fun a ha => ?_
  obtain ⟨c, hc, hpicked⟩ := select_eq_ok.1 ha
  exact hrest c a hc hpicked

theorem follows_text (pool : ConstantPool) (index : UInt16) : Follows pool (pool.text index) [⟨.text, index⟩] :=
  follows_select .text (by decide) fun c => by cases c <;> simp [Demand.takes]

/-- A text that is asked for as a name has to be a string as well. -/
theorem follows_utf8 (pool : ConstantPool) (index : UInt16) : Follows pool (pool.utf8 index) [⟨.name, index⟩] := by
  intro e
  rw [firstFault_singleton]
  constructor
  · intro h
    rcases utf8_eq_error h with ⟨rfl, hnone⟩ | ⟨c, hc, hother, rfl⟩ | ⟨t, ht, hstring, rfl⟩
    · rcases vacant_or_holds pool index with hvacant | ⟨c, hc⟩
      · exact .vacant hvacant
      · exact absurd hc (hnone c)
    · refine .otherKind hc ?_
      rw [Demand.takes_name, Bool.eq_false_iff]
      exact mt Demand.takes_text.1 fun ⟨t, ht⟩ => hother t ht
    · refine .surrogate ht ?_
      have hsurrogate := mt Text.exists_ofString_iff.2 fun ⟨s, hs⟩ => hstring s hs
      simpa using hsurrogate
  · intro h
    cases h with
    | vacant nothing =>
      rw [utf8, (follows_text pool index _).2 (.here (.vacant nothing))]
      rfl
    | otherKind held other =>
      rw [utf8, (follows_text pool index _).2 (.here (.otherKind held (Demand.takes_name _ ▸ other)))]
      rfl
    | surrogate held broken => exact utf8_of_surrogate (get_eq_ok.2 held) broken

/-! ## Constants that refer on

What a constant refers to is looked at only when the constant itself was taken, and then the trail goes on as the
constant says. -/

theorem text_eq_ok {t : Text} : pool.text index = .ok t ↔ pool.Holds index (.utf8 t) := by
  constructor
  · intro h
    obtain ⟨c, hc, hpick⟩ := select_eq_ok.1 h
    cases c <;> cases hpick
    exact hc
  · exact fun h => text_of_get (get_eq_ok.2 h)

theorem className_eq_ok {name : String} :
    pool.className index = .ok name ↔ ∃ k, pool.Holds index (.classRef k) ∧ pool.Names k name := by
  constructor
  · intro h
    obtain ⟨k, hk, hname⟩ := except_bind_eq_ok.1 h
    obtain ⟨c, hc, hpick⟩ := select_eq_ok.1 hk
    cases c <;> cases hpick
    exact ⟨k, hc, utf8_eq_ok.1 hname⟩
  · rintro ⟨k, hk, hname⟩
    rw [className_of_get (get_eq_ok.2 hk), utf8_eq_ok.2 hname]

theorem string_eq_ok {t : Text} :
    pool.string index = .ok t ↔ ∃ k, pool.Holds index (.string k) ∧ pool.Holds k (.utf8 t) := by
  constructor
  · intro h
    obtain ⟨k, hk, ht⟩ := except_bind_eq_ok.1 h
    obtain ⟨c, hc, hpick⟩ := select_eq_ok.1 hk
    cases c <;> cases hpick
    exact ⟨k, hc, text_eq_ok.1 ht⟩
  · rintro ⟨k, hk, ht⟩
    rw [string_of_get (get_eq_ok.2 hk), text_eq_ok.2 ht]

theorem signature_eq_ok {name descriptor : String} : pool.signature index = .ok ⟨name, descriptor⟩ ↔
    ∃ a d, pool.Holds index (.nameAndType a d) ∧ pool.Names a name ∧ pool.Names d descriptor := by
  unfold signature
  simp only [except_bind_eq_ok, select_eq_ok, utf8_eq_ok]
  constructor
  · rintro ⟨⟨a, d⟩, ⟨c, hc, hpick⟩, _, hname, _, hdescriptor, hboth⟩
    cases c <;> cases hpick
    cases hboth
    exact ⟨a, d, hc, hname, hdescriptor⟩
  · rintro ⟨a, d, hc, hname, hdescriptor⟩
    exact ⟨(a, d), ⟨_, hc, rfl⟩, name, hname, descriptor, hdescriptor, rfl⟩

theorem memberRef_eq_ok {owner name descriptor : String} : pool.memberRef index = .ok ⟨owner, ⟨name, descriptor⟩⟩ ↔
    ∃ kind c n, pool.Holds index (.member kind c n) ∧ pool.signature n = .ok ⟨name, descriptor⟩ ∧
    pool.className c = .ok owner := by
  unfold memberRef
  simp only [except_bind_eq_ok, select_eq_ok]
  constructor
  · rintro ⟨⟨c, n⟩, ⟨constant, hheld, hpick⟩, _, hsignature, _, howner, hboth⟩
    cases constant <;> cases hpick
    cases hboth
    exact ⟨_, c, n, hheld, hsignature, howner⟩
  · rintro ⟨kind, c, n, hheld, hsignature, howner⟩
    exact ⟨(c, n), ⟨_, hheld, rfl⟩, _, hsignature, _, howner, rfl⟩

theorem follows_className (pool : ConstantPool) (index : UInt16) :
    Follows pool (pool.className index) (pool.classTrail index) := by
  refine follows_select_bind .classRef (by decide) (fun c => by cases c <;> simp [Demand.takes]) ?_
  intro c k hc hpick
  cases c <;> cases hpick
  rw [show pool.slots[index.toNat]? = _ from hc]
  exact follows_utf8 pool k

theorem follows_string (pool : ConstantPool) (index : UInt16) :
    Follows pool (pool.string index) (pool.stringTrail index) := by
  refine follows_select_bind .string (by decide) (fun c => by cases c <;> simp [Demand.takes]) ?_
  intro c k hc hpick
  cases c <;> cases hpick
  rw [show pool.slots[index.toNat]? = _ from hc]
  exact follows_text pool k

theorem follows_signature (pool : ConstantPool) (index : UInt16) :
    Follows pool (pool.signature index) (pool.signatureTrail index) := by
  refine follows_select_bind .nameAndType (by decide) (fun c => by cases c <;> simp [Demand.takes]) ?_
  rintro c ⟨a, d⟩ hc hpick
  cases c <;> cases hpick
  rw [show pool.slots[index.toNat]? = _ from hc]
  exact (follows_utf8 pool a).cons fun _ _ => (follows_utf8 pool d).map _

theorem follows_memberRef (pool : ConstantPool) (index : UInt16) :
    Follows pool (pool.memberRef index) (pool.memberTrail index) := by
  refine follows_select_bind .member (by decide) (fun c => by cases c <;> simp [Demand.takes]) ?_
  rintro c ⟨owner, signature⟩ hc hpick
  cases c <;> cases hpick
  rw [show pool.slots[index.toNat]? = _ from hc]
  exact (follows_signature pool signature).bind fun _ _ => (follows_className pool owner).map _

end Faults

/-! ## Pools that were read -/

section Decoded

variable {pool : ConstantPool} {c : Cursor} (decoded : (decoder.runAt c).result = .ok pool)
include decoded

theorem vacant_zero_of_decoder : pool.Vacant 0 := by
  obtain ⟨t, hd⟩ := Decoder.runAt_result_eq_ok.1 decoded
  obtain ⟨_, -, ⟨-⟩⟩ := reads_decoder.spans hd
  exact .inr rfl

/-- **In a pool that was read, pairs are joined**, so that the surrogates in its texts have no partner. -/
theorem unpaired_of_decoder {index : UInt16} {t : Text} (h : pool.Holds index (.utf8 t)) : t.Unpaired := by
  obtain ⟨u, hd⟩ := Decoder.runAt_result_eq_ok.1 decoded
  obtain ⟨_, -, hspelled⟩ := reads_decoder.spans hd
  obtain @⟨count, slots, constants, fills⟩ := hspelled
  have hslot : (none :: slots)[index.toNat]? = some (some (.utf8 t)) := by rwa [Holds, List.getElem?_toArray] at h
  have hmem : some (.utf8 t) ∈ slots := by simpa using List.mem_of_getElem? hslot
  obtain ⟨own, hown⟩ := InOrder.exists_of_mem fills.inOrder (.utf8 t) (List.mem_filterMap.2 ⟨_, hmem, rfl⟩)
  cases hown with
  | utf8 _ decodes =>
    exact Text.unpaired_of_merges (Text.merges_iff.2 (ModifiedUtf8.joinSurrogates_of_decode? decodes).symm) rfl

end Decoded

/-- **Resolution is exact, and its errors are true of the first slot at fault.**  The parts say what stands in which
slot if something is found, and in which order the slots are asked if nothing is. -/
theorem resolution_exact (pool : ConstantPool) (i : UInt16) :
    (∀ t, pool.text i = .ok t ↔ pool.Holds i (.utf8 t)) ∧
    (∀ s, pool.utf8 i = .ok s ↔ pool.Holds i (.utf8 (Text.ofString s))) ∧
    (∀ t, pool.string i = .ok t ↔ ∃ k, pool.Holds i (.string k) ∧ pool.Holds k (.utf8 t)) ∧
    (∀ s, pool.className i = .ok s ↔ ∃ k, pool.Holds i (.classRef k) ∧ pool.Holds k (.utf8 (Text.ofString s))) ∧
    (∀ name descriptor, pool.signature i = .ok ⟨name, descriptor⟩ ↔ ∃ a d, pool.Holds i (.nameAndType a d) ∧
      pool.Holds a (.utf8 (Text.ofString name)) ∧ pool.Holds d (.utf8 (Text.ofString descriptor))) ∧
    (∀ owner name descriptor, pool.memberRef i = .ok ⟨owner, ⟨name, descriptor⟩⟩ ↔
      ∃ kind c n a d k, pool.Holds i (.member kind c n) ∧ pool.Holds n (.nameAndType a d) ∧ pool.Holds c (.classRef k) ∧
        pool.Holds a (.utf8 (Text.ofString name)) ∧ pool.Holds d (.utf8 (Text.ofString descriptor)) ∧
        pool.Holds k (.utf8 (Text.ofString owner))) ∧
    (∀ e, pool.text i = .error e ↔ FirstFault pool [⟨.text, i⟩] e) ∧
    (∀ e, pool.utf8 i = .error e ↔ FirstFault pool [⟨.name, i⟩] e) ∧
    (∀ e, pool.string i = .error e ↔ FirstFault pool (pool.stringTrail i) e) ∧
    (∀ e, pool.className i = .error e ↔ FirstFault pool (pool.classTrail i) e) ∧
    (∀ e, pool.signature i = .error e ↔ FirstFault pool (pool.signatureTrail i) e) ∧
    (∀ e, pool.memberRef i = .error e ↔ FirstFault pool (pool.memberTrail i) e) ∧
    -- the trail of a member reference, when each of its constants is of the kind that is asked for
    (∀ kind c n a d k, pool.Holds i (.member kind c n) → pool.Holds n (.nameAndType a d) → pool.Holds c (.classRef k) →
      pool.memberTrail i = [⟨.member, i⟩, ⟨.nameAndType, n⟩, ⟨.name, a⟩, ⟨.name, d⟩, ⟨.classRef, c⟩, ⟨.name, k⟩]) ∧
    -- in a pool that was read, nothing stands at index zero, and a surrogate that keeps a text from being a string has
    -- no partner
    (∀ c, (decoder.runAt c).result = .ok pool → pool.Vacant 0 ∧
      ∀ j t, pool.Holds j (.utf8 t) → (∃ p ∈ t, p.isSurrogate = true) → t.HasLoneSurrogate) := by
  refine ⟨fun t => text_eq_ok, fun s => utf8_eq_ok, fun t => string_eq_ok, fun s => className_eq_ok,
    fun _ _ => signature_eq_ok, ?_, follows_text pool i, follows_utf8 pool i, follows_string pool i,
    follows_className pool i, follows_signature pool i, follows_memberRef pool i, ?_, ?_⟩
  · intro owner name descriptor
    simp only [memberRef_eq_ok, signature_eq_ok, className_eq_ok]
    constructor
    · rintro ⟨kind, c, n, hi, ⟨a, d, hn, ha, hd⟩, k, hc, hk⟩
      exact ⟨kind, c, n, a, d, k, hi, hn, hc, ha, hd, hk⟩
    · rintro ⟨kind, c, n, a, d, k, hi, hn, hc, ha, hd, hk⟩
      exact ⟨kind, c, n, hi, ⟨a, d, hn, ha, hd⟩, k, hc, hk⟩
  · intro kind c n a d k hi hn hc
    unfold Holds at hi hn hc
    simp [memberTrail, signatureTrail, classTrail, hi, hn, hc]
  · intro c decoded
    refine ⟨vacant_zero_of_decoder decoded, fun j t held hsurrogate => ?_⟩
    exact Text.hasLoneSurrogate_of_unpaired (unpaired_of_decoder decoded held) hsurrogate

/-- A member reference with two faults: its descriptor is nowhere, and the name of its class is a number. -/
def twoFaults : ConstantPool :=
  ⟨6, #[none, some (.member .method 5 2), some (.nameAndType 3 9), some (.utf8 (.ofString "run")), some (.integer 7),
    some (.classRef 4)]⟩

/-- The descriptor comes before the class, whose own fault is found when the class is asked for alone.  A text with a
surrogate between others that make a pair has been read, and can be no name. -/
theorem twoFaults_first_fault :
    (twoFaults.memberRef 1 = .error (.invalidConstantIndex 9) ∧
      twoFaults.memberTrail 1 = [⟨.member, 1⟩, ⟨.nameAndType, 2⟩, ⟨.name, 3⟩, ⟨.name, 9⟩, ⟨.classRef, 5⟩, ⟨.name, 4⟩] ∧
      FirstFault twoFaults (twoFaults.memberTrail 1) (.invalidConstantIndex 9)) ∧
    (twoFaults.className 5 = .error (.wrongConstantKind 4 "Utf8" "Integer") ∧
      FirstFault twoFaults [⟨.classRef, 5⟩, ⟨.name, 4⟩] (.wrongConstantKind 4 "Utf8" "Integer")) ∧
    ∃ pool t, (decoder.runAt (.ofBytes (textBytes loneSurrogates))).result = .ok pool ∧ pool.Vacant 0 ∧
    pool.Holds 3 (.utf8 t) ∧
      t.HasLoneSurrogate := by
  refine ⟨?_, ?_, ?_⟩
  · obtain ⟨-, -, -, -, -, -, -, -, -, -, -, herror, htrail, -⟩ := resolution_exact twoFaults 1
    have hfails : twoFaults.memberRef 1 = .error (.invalidConstantIndex 9) := by decide
    exact ⟨hfails, htrail .method 5 2 3 9 4 rfl rfl rfl, (herror _).1 hfails⟩
  · obtain ⟨-, -, -, -, -, -, -, -, -, herror, -⟩ := resolution_exact twoFaults 5
    have hfails : twoFaults.className 5 = .error (.wrongConstantKind 4 "Utf8" "Integer") := by decide
    exact ⟨hfails, (herror _).1 hfails⟩
  · have hok : (decoder.runAt (.ofBytes (textBytes loneSurrogates))).result = .ok ⟨6, #[none, some (.long 1), none,
        some (.utf8 [.ofNat 0, .ofNat 0xD800, .ofNat 0x1F600, .ofNat 0xDC00]), some (.string 3),
        some (.classRef 3)]⟩ := by
      decide +kernel
    obtain ⟨-, -, -, -, -, -, -, -, -, -, -, -, -, hread⟩ := resolution_exact _ 3
    obtain ⟨hzero, hlone⟩ := hread _ hok
    exact ⟨_, _, hok, hzero, rfl, hlone 3 _ rfl ⟨.ofNat 0xD800, .tail _ (.head _), by decide⟩⟩

end ConstantPool

end Jvm
