import Jvm.Proofs.Launching
import Jvm.Proofs.Resolution
/-!
# The search for a method

A search looks at the methods in their order until one decides it: by matching, or by a name or a descriptor that does
not resolve. Every method before that one resolves and is another.  So the outcome is that of the first deciding method,
or `none` if there is no such method, and **nothing behind the deciding method has a part in it**:
`ClassFile.method_search_decided`.
-/
namespace Jvm

namespace Member

variable {pool : ConstantPool} {m : Member} {name descriptor : String} {e : DecodeError}

/-- The slots of the name and of the descriptor hold these texts. -/
def Matches (pool : ConstantPool) (m : Member) (name descriptor : String) : Prop :=
  pool.Names m.nameIndex name ∧ pool.Names m.descriptorIndex descriptor

/-- Both the name and the descriptor resolve. -/
def Resolves (pool : ConstantPool) (m : Member) : Prop := ∃ name descriptor, m.Matches pool name descriptor

/-- The slot of the name is at fault in this way, or it is not and that of the descriptor is. -/
def FailsWith (pool : ConstantPool) (m : Member) (e : DecodeError) : Prop :=
  pool.FirstFault [⟨.name, m.nameIndex⟩, ⟨.name, m.descriptorIndex⟩] e

theorem signature_eq_ok : m.signature pool = .ok ⟨name, descriptor⟩ ↔ m.Matches pool name descriptor := by
  simp only [signature, Member.name, Member.descriptor, ConstantPool.except_bind_eq_ok, ConstantPool.utf8_eq_ok]
  constructor
  · rintro ⟨_, hname, _, hdescriptor, hboth⟩
    cases hboth
    exact ⟨hname, hdescriptor⟩
  · rintro ⟨hname, hdescriptor⟩
    exact ⟨name, hname, descriptor, hdescriptor, rfl⟩

theorem signature_eq_error : m.signature pool = .error e ↔ m.FailsWith pool e :=
  (ConstantPool.follows_utf8 pool m.nameIndex).cons
    (fun _ _ => (ConstantPool.follows_utf8 pool m.descriptorIndex).map _) e

theorem hasSignature_eq (signature : Signature) :
    m.hasSignature pool signature = (m.signature pool).map fun own => decide (own = signature) := by
  unfold hasSignature
  cases m.signature pool <;> rfl

/-! A comparison has three outcomes, and each has its condition. -/

theorem hasSignature_eq_true : m.hasSignature pool ⟨name, descriptor⟩ = .ok true ↔ m.Matches pool name descriptor := by
  rw [hasSignature_eq, ← signature_eq_ok]
  cases m.signature pool <;> simp [Except.map]

theorem hasSignature_eq_error {signature : Signature} :
    m.hasSignature pool signature = .error e ↔ m.FailsWith pool e := by
  rw [hasSignature_eq, ← signature_eq_error]
  cases m.signature pool <;> simp [Except.map]

theorem hasSignature_eq_false : m.hasSignature pool ⟨name, descriptor⟩ = .ok false ↔
    m.Resolves pool ∧ ¬ m.Matches pool name descriptor := by
  simp only [Resolves, hasSignature_eq, ← signature_eq_ok]
  cases m.signature pool with
  | error e => simp [Except.map]
  | ok own =>
    have hresolves : ∃ n d, own = ⟨n, d⟩ := ⟨own.name, own.descriptor, rfl⟩
    simp [Except.map, hresolves]

end Member

namespace ClassFile

/-! ## Getting to a method -/

section Search

variable {pool : ConstantPool} {signature : Signature} {ms : List Member} {m : Member} {i : Nat}

/-- The search gets to this method, the one at the given position: none before it decides. -/
def ReachedAt (pool : ConstantPool) (signature : Signature) (ms : List Member) (i : Nat) (m : Member) : Prop :=
  ms[i]? = some m ∧ ∀ j m', j < i → ms[j]? = some m' → m'.hasSignature pool signature = .ok false

theorem positionFrom_of_passed (h : ∀ m ∈ ms, m.hasSignature pool signature = .ok false) (start : Nat) :
    positionFrom pool signature start ms = .ok none := by
  rw [← List.append_nil ms, positionFrom_append h]
  rfl

/-- **The first method that decides gives the outcome.** -/
theorem positionFrom_of_reachedAt (h : ReachedAt pool signature ms i m)
    (hdecides : m.hasSignature pool signature ≠ .ok false) (start : Nat) :
    positionFrom pool signature start ms = (m.hasSignature pool signature).map fun _ => some (start + i) := by
  obtain ⟨hm, hbefore⟩ := h
  obtain ⟨hlt, hget⟩ := List.getElem?_eq_some_iff.1 hm
  have hpassed : ∀ b ∈ ms.take i, b.hasSignature pool signature = .ok false := by
    intro b hb
    obtain ⟨j, hj, rfl⟩ := List.mem_take_iff_getElem.1 hb
    exact hbefore j _ (by omega) (List.getElem?_eq_getElem _)
  rw [← List.take_append_drop i ms, positionFrom_append hpassed, List.drop_eq_getElem_cons hlt, hget, positionFrom,
    List.length_take_of_le (Nat.le_of_lt hlt)]
  cases hs : m.hasSignature pool signature with
  | error e => rfl
  | ok same =>
    cases same with
    | true => rfl
    | false => exact absurd hs hdecides

theorem ReachedAt.of_take_eq {ms' : List Member} (h : ReachedAt pool signature ms i m)
    (hsame : ms'.take (i + 1) = ms.take (i + 1)) :
    ReachedAt pool signature ms' i m := by
  have hget : ∀ j, j ≤ i → ms'[j]? = ms[j]? := fun j hj => by
    rw [← List.getElem?_take_of_lt (Nat.lt_succ_of_le hj), hsame, List.getElem?_take_of_lt (Nat.lt_succ_of_le hj)]
  refine ⟨(hget i (Nat.le_refl i)).trans h.1, fun j b hj hb => ?_⟩
  exact h.2 j b hj ((hget j (Nat.le_of_lt hj)).symm.trans hb)

theorem passed_or_reachedAt (pool : ConstantPool) (signature : Signature) : ∀ ms : List Member,
    (∀ m ∈ ms, m.hasSignature pool signature = .ok false) ∨
      ∃ i m, ReachedAt pool signature ms i m ∧ m.hasSignature pool signature ≠ .ok false
  | [] => .inl fun _ hm => nomatch hm
  | m :: ms => by
    by_cases hm : m.hasSignature pool signature = .ok false
    · rcases passed_or_reachedAt pool signature ms with hall | ⟨i, m', ⟨hget, hbefore⟩, hdecides⟩
      · exact .inl (List.forall_mem_cons.2 ⟨hm, hall⟩)
      · refine .inr ⟨i + 1, m', ⟨hget, fun j b hj hb => ?_⟩, hdecides⟩
        cases j with
        | zero =>
          cases hb
          exact hm
        | succ j => exact hbefore j b (Nat.lt_of_succ_lt_succ hj) hb
    · exact .inr ⟨0, m, ⟨rfl, fun j _ hj => absurd hj (Nat.not_lt_zero j)⟩, hm⟩

theorem positionFrom_eq_some : positionFrom pool signature 0 ms = .ok (some i) ↔
    ∃ m, ReachedAt pool signature ms i m ∧ m.hasSignature pool signature = .ok true := by
  constructor
  · intro h
    rcases passed_or_reachedAt pool signature ms with hall | ⟨k, m, hreached, hdecides⟩
    · rw [positionFrom_of_passed hall] at h
      cases h
    · rw [positionFrom_of_reachedAt hreached hdecides, Nat.zero_add] at h
      rcases hs : m.hasSignature pool signature with e | _ | _
      · simp [hs, Except.map] at h
      · exact absurd hs hdecides
      · simp only [hs, Except.map, Except.ok.injEq, Option.some.injEq] at h
        exact ⟨m, h ▸ hreached, hs⟩
  · rintro ⟨m, hreached, hs⟩
    rw [positionFrom_of_reachedAt hreached (by simp [hs]), hs, Nat.zero_add]
    rfl

theorem positionFrom_eq_error {e : DecodeError} : positionFrom pool signature 0 ms = .error e ↔
    ∃ i m, ReachedAt pool signature ms i m ∧ m.hasSignature pool signature = .error e := by
  constructor
  · intro h
    rcases passed_or_reachedAt pool signature ms with hall | ⟨i, m, hreached, hdecides⟩
    · rw [positionFrom_of_passed hall] at h
      cases h
    · rw [positionFrom_of_reachedAt hreached hdecides] at h
      rcases hs : m.hasSignature pool signature with e' | _
      · simp only [hs, Except.map, Except.error.injEq] at h
        exact ⟨i, m, hreached, h ▸ hs⟩
      · simp [hs, Except.map] at h
  · rintro ⟨i, m, hreached, hs⟩
    rw [positionFrom_of_reachedAt hreached (by simp [hs]), hs]
    rfl

theorem positionFrom_eq_none : positionFrom pool signature 0 ms = .ok none ↔
    ∀ m ∈ ms, m.hasSignature pool signature = .ok false := by
  constructor
  · intro h
    rcases passed_or_reachedAt pool signature ms with hall | ⟨i, m, hreached, hdecides⟩
    · exact hall
    · rw [positionFrom_of_reachedAt hreached hdecides] at h
      cases hs : m.hasSignature pool signature <;> simp [hs, Except.map] at h
  · exact fun h => positionFrom_of_passed h 0

end Search

/-! ## The outcome -/

variable {c : ClassFile} {name descriptor : String}

/-- Every method before this position resolves, and is another. -/
def PassedBefore (c : ClassFile) (name descriptor : String) (i : Nat) : Prop :=
  ∀ j m, j < i → c.methods[j]? = some m → m.Resolves c.pool ∧ ¬ m.Matches c.pool name descriptor

theorem reachedAt_iff {i : Nat} {m : Member} : ReachedAt c.pool ⟨name, descriptor⟩ c.methods i m ↔
    c.methods[i]? = some m ∧ c.PassedBefore name descriptor i := by
  simp only [ReachedAt, PassedBefore, Member.hasSignature_eq_false]

theorem methodPosition?_eq_some {i : Nat} : c.methodPosition? name descriptor = .ok (some i) ↔
    ∃ m, c.methods[i]? = some m ∧ m.Matches c.pool name descriptor ∧ c.PassedBefore name descriptor i := by
  rw [methodPosition?, positionFrom_eq_some]
  simp only [reachedAt_iff, Member.hasSignature_eq_true, and_assoc, and_comm, and_left_comm]

theorem findMethod?_eq_some {m : Member} : c.findMethod? name descriptor = .ok (some m) ↔
    ∃ i, c.methodPosition? name descriptor = .ok (some i) ∧ c.methods[i]? = some m := by
  unfold findMethod?
  cases hp : c.methodPosition? name descriptor with
  | error e => simp [Except.map]
  | ok position => cases position <;> simp [Except.map]

theorem findMethod?_eq_error {e : DecodeError} :
    c.findMethod? name descriptor = .error e ↔ c.methodPosition? name descriptor = .error e := by
  unfold findMethod?
  cases c.methodPosition? name descriptor <;> simp [Except.map]

/-- A position that was found is that of a method. -/
theorem findMethod?_eq_none :
    c.findMethod? name descriptor = .ok none ↔ c.methodPosition? name descriptor = .ok none := by
  unfold findMethod?
  rcases hp : c.methodPosition? name descriptor with e | _ | i
  · simp [Except.map]
  · simp [Except.map]
  · obtain ⟨m, hm, -⟩ := methodPosition?_eq_some.1 hp
    simp [Except.map, hm]

/-- **The first method that matches or does not resolve decides a search**, whatever comes behind it. -/
theorem method_search_decided (c : ClassFile) (name descriptor : String) :
    (∀ i, c.methodPosition? name descriptor = .ok (some i) ↔
      ∃ m, c.methods[i]? = some m ∧ m.Matches c.pool name descriptor ∧ c.PassedBefore name descriptor i) ∧
    (∀ m, c.findMethod? name descriptor = .ok (some m) ↔
      ∃ i, c.methods[i]? = some m ∧ m.Matches c.pool name descriptor ∧ c.PassedBefore name descriptor i) ∧
    (c.findMethod? name descriptor = .ok none ↔
      ∀ m ∈ c.methods, m.Resolves c.pool ∧ ¬ m.Matches c.pool name descriptor) ∧
    (∀ e, c.findMethod? name descriptor = .error e ↔
      ∃ i m, c.methods[i]? = some m ∧ m.FailsWith c.pool e ∧ c.PassedBefore name descriptor i) ∧
    -- only the methods up to the deciding one have a part in the outcome
    (∀ i m, c.methods[i]? = some m → (m.Matches c.pool name descriptor ∨ ∃ e, m.FailsWith c.pool e) →
      c.PassedBefore name descriptor i → ∀ c' : ClassFile, c'.pool = c.pool →
      c'.methods.take (i + 1) = c.methods.take (i + 1) →
        c'.methodPosition? name descriptor = c.methodPosition? name descriptor ∧
        c'.findMethod? name descriptor = c.findMethod? name descriptor) := by
  refine ⟨fun i => methodPosition?_eq_some, fun m => ?_, ?_, fun e => ?_, ?_⟩
  · rw [findMethod?_eq_some]
    simp only [methodPosition?_eq_some]
    constructor
    · rintro ⟨i, ⟨m', hm', hmatches, hbefore⟩, hm⟩
      cases hm'.symm.trans hm
      exact ⟨i, hm, hmatches, hbefore⟩
    · rintro ⟨i, hm, hmatches, hbefore⟩
      exact ⟨i, ⟨m, hm, hmatches, hbefore⟩, hm⟩
  · rw [findMethod?_eq_none, methodPosition?, positionFrom_eq_none]
    simp only [Member.hasSignature_eq_false]
  · rw [findMethod?_eq_error, methodPosition?, positionFrom_eq_error]
    simp only [reachedAt_iff, Member.hasSignature_eq_error, and_assoc, and_comm, and_left_comm]
  · intro i m hm hdecides hbefore c' hpool hmethods
    have hreached := reachedAt_iff.2 ⟨hm, hbefore⟩
    have hreached' := hreached.of_take_eq hmethods
    have hstops : m.hasSignature c.pool ⟨name, descriptor⟩ ≠ .ok false := fun hs => by
      rcases hdecides with hmatches | ⟨e, he⟩
      · exact (Member.hasSignature_eq_false.1 hs).2 hmatches
      · rw [Member.hasSignature_eq_error.2 he] at hs
        cases hs
    have hposition : c'.methodPosition? name descriptor = c.methodPosition? name descriptor := by
      rw [methodPosition?, methodPosition?, hpool, positionFrom_of_reachedAt hreached hstops,
        positionFrom_of_reachedAt hreached' hstops]
    refine ⟨hposition, ?_⟩
    rw [findMethod?, findMethod?, hposition, methodPosition?, positionFrom_of_reachedAt hreached hstops, Nat.zero_add]
    cases m.hasSignature c.pool ⟨name, descriptor⟩ with
    | error e => rfl
    | ok _ => simp only [Except.map, Option.bind_some, hreached.1, hreached'.1]

/-- A class with a method that has its name and descriptor at these indices, and behind it the one that is asked for. -/
def brokenFirst (nameIndex descriptorIndex : UInt16) : ClassFile :=
  { plainClass [] with methods := [⟨⟨9⟩, nameIndex, descriptorIndex, []⟩, plainMain []] }

/-- The broken method decides, with or without the one behind it: if there is no name, and if there is no descriptor
although the name is another. -/
theorem brokenFirst_decides :
    (⟨⟨9⟩, 99, 2, []⟩ : Member).FailsWith (brokenFirst 99 2).pool (.invalidConstantIndex 99) ∧
      (brokenFirst 99 2).findMethod? "main" "([Ljava/lang/String;)V" = .error (.invalidConstantIndex 99) ∧
    (⟨⟨9⟩, 3, 7, []⟩ : Member).FailsWith (brokenFirst 3 7).pool (.invalidConstantIndex 7) ∧
      (brokenFirst 3 7).findMethod? "main" "([Ljava/lang/String;)V" = .error (.invalidConstantIndex 7) ∧
      { brokenFirst 3 7 with methods := [⟨⟨9⟩, 3, 7, []⟩] }.findMethod? "main" "([Ljava/lang/String;)V" =
        .error (.invalidConstantIndex 7) := by
  have hbefore (n d : UInt16) : (brokenFirst n d).PassedBefore "main" "([Ljava/lang/String;)V" 0 :=
    fun j _ hj => absurd hj (Nat.not_lt_zero j)
  have hname : (⟨⟨9⟩, 99, 2, []⟩ : Member).FailsWith (brokenFirst 99 2).pool (.invalidConstantIndex 99) :=
    .here (.vacant (.inl (by decide)))
  have hdescriptor : (⟨⟨9⟩, 3, 7, []⟩ : Member).FailsWith (brokenFirst 3 7).pool (.invalidConstantIndex 7) :=
    Member.signature_eq_error.1 (by decide)
  obtain ⟨-, -, -, hunnamed, -⟩ := method_search_decided (brokenFirst 99 2) "main" "([Ljava/lang/String;)V"
  obtain ⟨-, -, -, herror, hupTo⟩ := method_search_decided (brokenFirst 3 7) "main" "([Ljava/lang/String;)V"
  have hfirst : (brokenFirst 3 7).findMethod? "main" "([Ljava/lang/String;)V" = .error (.invalidConstantIndex 7) :=
    (herror _).2 ⟨0, _, rfl, hdescriptor, hbefore 3 7⟩
  refine ⟨hname, (hunnamed _).2 ⟨0, _, rfl, hname, hbefore 99 2⟩, hdescriptor, hfirst, ?_⟩
  exact (hupTo 0 _ rfl (.inr ⟨_, hdescriptor⟩) (hbefore 3 7) _ rfl rfl).2.trans hfirst

end ClassFile

end Jvm
