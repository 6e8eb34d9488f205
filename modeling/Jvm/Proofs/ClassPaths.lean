import Jvm.Proofs.LaunchLog
import Mathlib.Data.List.Dedup
/-!
# A class path remembers the last insert

Names are brought to their internal form when a class is inserted and when one is launched, and not when one is looked
up.  What a class path answers after any inserts, how many classes it counts, and what a launch finds on it is said here
of the inserts alone: `ClassPath.last_insert_wins`.

One insert changes the answer for one internal name (`find?_insert`), and keeps the names distinct.  The rest is
induction along the inserts, from the last one back.
-/
namespace Jvm

/-! ## Internal forms -/

theorem no_dot_internalForm (name : String) : '.' ∉ (internalForm name).toList := by
  rw [toList_internalForm, List.mem_map]
  rintro ⟨c, -, hc⟩
  by_cases hdot : c = '.' <;> simp [hdot] at hc

theorem internalForm_of_no_dot {name : String} (h : '.' ∉ name.toList) : internalForm name = name := by
  rw [← String.toList_inj, toList_internalForm]
  refine (List.map_congr_left fun c hc => if_neg ?_).trans (List.map_id' _)
  rintro rfl
  exact h hc

/-- **An internal form is its own internal form.** -/
theorem internalForm_internalForm (name : String) : internalForm (internalForm name) = internalForm name :=
  internalForm_of_no_dot (no_dot_internalForm name)

namespace ClassPath

/-! ## One insert -/

/-- The internal names that have a class. -/
def names (path : ClassPath) : List String := path.entries.map Prod.fst

theorem find?_insert (path : ClassPath) (name : String) (bytes : Bytes) (k : String) :
    (path.insert name bytes).find? k = if internalForm name = k then some bytes else path.find? k := by
  unfold find? insert
  rw [List.find?_cons]
  by_cases hk : internalForm name = k
  · simp [hk]
  · simp only [hk, decide_false, List.find?_filter, if_false]
    congr 2
    funext entry
    by_cases hentry : entry.1 = k
    · simp [hentry, Ne.symm hk]
    · simp [hentry]

theorem mem_names_insert {path : ClassPath} {name : String} {bytes : Bytes} {k : String} :
    k ∈ (path.insert name bytes).names ↔ k = internalForm name ∨ k ∈ path.names := by
  by_cases hk : k = internalForm name <;> simp [names, insert, hk]

/-- **Each name keeps one class.** -/
theorem nodup_names_insert {path : ClassPath} (h : path.names.Nodup) (name : String) (bytes : Bytes) :
    (path.insert name bytes).names.Nodup := by
  refine List.nodup_cons.2 ⟨fun hmem => ?_, h.sublist (List.filter_sublist.map Prod.fst)⟩
  obtain ⟨entry, hentry, heq⟩ := List.mem_map.1 hmem
  simpa [heq] using (List.mem_filter.1 hentry).2

/-! ## A history of inserts -/

/-- The class path after these inserts, oldest first. -/
def ofInserts (inserts : List (String × Bytes)) : ClassPath :=
  inserts.foldl (fun path given => path.insert given.1 given.2) empty

theorem ofInserts_concat (inserts : List (String × Bytes)) (given : String × Bytes) :
    ofInserts (inserts ++ [given]) = (ofInserts inserts).insert given.1 given.2 := List.foldl_concat ..

/-- The last insert under a name with this internal form gives these bytes. -/
def LastGives (inserts : List (String × Bytes)) (k : String) (bytes : Bytes) : Prop :=
  ∃ before name after, inserts = before ++ (name, bytes) :: after ∧ internalForm name = k ∧
    ∀ given ∈ after, internalForm given.1 ≠ k

theorem lastGives_concat {inserts : List (String × Bytes)} {given : String × Bytes} {k : String} {bytes : Bytes} :
    LastGives (inserts ++ [given]) k bytes ↔
      if internalForm given.1 = k then given.2 = bytes else LastGives inserts k bytes := by
  constructor
  · rintro ⟨before, name, after, hsplit, hname, hafter⟩
    rcases List.eq_nil_or_concat after with rfl | ⟨rest, last, rfl⟩
    · obtain ⟨-, hlast⟩ := List.append_inj' hsplit rfl
      obtain rfl := List.singleton_inj.1 hlast
      rw [if_pos hname]
    · rw [List.concat_eq_append, ← List.cons_append, ← List.append_assoc] at hsplit
      obtain ⟨rfl, hlast⟩ := List.append_inj' hsplit rfl
      obtain rfl := List.singleton_inj.1 hlast
      rw [if_neg (hafter given (by simp))]
      exact ⟨before, name, rest, rfl, hname, fun g hg => hafter g (by simp [hg])⟩
  · intro h
    by_cases hk : internalForm given.1 = k
    · rw [if_pos hk] at h
      exact ⟨inserts, given.1, [], by rw [← h], hk, fun g hg => nomatch hg⟩
    · rw [if_neg hk] at h
      obtain ⟨before, name, after, rfl, hname, hafter⟩ := h
      refine ⟨before, name, after ++ [given], by simp, hname, fun g hg => ?_⟩
      rcases List.mem_append.1 hg with hg | hg
      · exact hafter g hg
      · rw [List.mem_singleton.1 hg]
        exact hk

theorem find?_ofInserts_eq_some {inserts : List (String × Bytes)} {k : String} {bytes : Bytes} :
    (ofInserts inserts).find? k = some bytes ↔ LastGives inserts k bytes := by
  induction inserts using List.reverseRecOn with
  | nil =>
    refine iff_of_false (fun h => nomatch h) ?_
    rintro ⟨before, name, after, hsplit, -⟩
    simp at hsplit
  | append_singleton inserts given ih =>
    rw [ofInserts_concat, find?_insert, lastGives_concat]
    split
    · exact Option.some_inj
    · exact ih

theorem find?_ofInserts_eq_none {inserts : List (String × Bytes)} {k : String} :
    (ofInserts inserts).find? k = none ↔ ∀ given ∈ inserts, internalForm given.1 ≠ k := by
  induction inserts using List.reverseRecOn with
  | nil => exact iff_of_true rfl fun _ h => nomatch h
  | append_singleton inserts given ih =>
    rw [ofInserts_concat, find?_insert, List.forall_mem_append, List.forall_mem_singleton]
    by_cases hk : internalForm given.1 = k
    · simp [hk]
    · simp [hk, ih]

theorem mem_names_ofInserts {inserts : List (String × Bytes)} {k : String} :
    k ∈ (ofInserts inserts).names ↔ k ∈ inserts.map fun given => internalForm given.1 := by
  induction inserts using List.reverseRecOn with
  | nil => rfl
  | append_singleton inserts given ih =>
    rw [ofInserts_concat, mem_names_insert, ih, List.map_append, List.mem_append, List.map_singleton,
      List.mem_singleton, or_comm]

theorem nodup_names_ofInserts (inserts : List (String × Bytes)) : (ofInserts inserts).names.Nodup := by
  induction inserts using List.reverseRecOn with
  | nil => exact .nil
  | append_singleton inserts given ih =>
    rw [ofInserts_concat]
    exact nodup_names_insert ih given.1 given.2

/-- **As many classes are counted as different internal names were given.** -/
theorem size_ofInserts (inserts : List (String × Bytes)) :
    (ofInserts inserts).size = (inserts.map fun given => internalForm given.1).dedup.length := by
  have hsize : (ofInserts inserts).size = (ofInserts inserts).names.length := (List.length_map _).symm
  rw [hsize]
  refine ((List.perm_ext_iff_of_nodup (nodup_names_ofInserts inserts) (List.nodup_dedup _)).2 fun k => ?_).length_eq
  rw [List.mem_dedup, mem_names_ofInserts]

/-! ## The order of inserts -/

theorem find?_insert_comm (path : ClassPath) {x y : String × Bytes} (h : internalForm x.1 ≠ internalForm y.1) :
    ((path.insert x.1 x.2).insert y.1 y.2).find? = ((path.insert y.1 y.2).insert x.1 x.2).find? := by
  funext k
  simp only [find?_insert]
  by_cases hx : internalForm x.1 = k
  · have hy : internalForm y.1 ≠ k := fun hy => h (hx.trans hy.symm)
    simp [hx, hy]
  · simp [hx]

/-- Inserts keep apart what is looked up from how it is held. -/
theorem find?_foldl_congr (inserts : List (String × Bytes)) : ∀ {path path' : ClassPath}, path.find? = path'.find? →
    (inserts.foldl (fun path given => path.insert given.1 given.2) path).find? =
      (inserts.foldl (fun path given => path.insert given.1 given.2) path').find? := by
  induction inserts with
  | nil => exact id
  | cons given inserts ih =>
    intro path path' h
    refine ih (funext fun k => ?_)
    rw [find?_insert, find?_insert, h]

theorem find?_ofInserts_swap {x y : String × Bytes} (h : internalForm x.1 ≠ internalForm y.1)
    (before after : List (String × Bytes)) :
    (ofInserts (before ++ x :: y :: after)).find? = (ofInserts (before ++ y :: x :: after)).find? := by
  simp only [ofInserts, List.foldl_append, List.foldl_cons]
  exact find?_foldl_congr after (find?_insert_comm _ h)

end ClassPath

/-! ## Launches -/

theorem runClass_eq_classNotFound {source : ClassSource} {name other : String} {log : Log} :
    (runClass source name log).1 = .error (.classNotFound other) ↔ other = name ∧ source name = none := by
  cases hsource : source name with
  | none => simp [runClass, hsource, eq_comm]
  | some bytes =>
    refine iff_of_false ?_ (by simp)
    rcases hboth : ClassFile.parseWithEvents bytes with ⟨e | c, events⟩
    · simp [runClass, hsource, hboth]
    · rcases hmain : c.mainMethod? with e | _ | m
      · simp [runClass, hsource, hboth, hmain]
      · simp [runClass, hsource, hboth, hmain]
      · simp only [runClass, hsource, hboth, hmain, mapError_runtime_eq_error]
        rintro ⟨e, -, he⟩
        cases he

/-- Launches see the internal form of a name only. -/
theorem launchLogging_congr {n₁ n₂ : String} (h : internalForm n₁ = internalForm n₂) (log : Log)
    (source : ClassSource) :
    launchLogging log source n₁ = launchLogging log source n₂ := by
  unfold launchLogging
  rw [h]

/-- **The last insert under an internal name wins**, however the name was spelled.  The internal form of a name is the
name with a slash for every dot. -/
theorem ClassPath.last_insert_wins (inserts : List (String × Bytes)) :
    (∀ name, (internalForm name).toList = name.toList.map fun c => if c = '.' then '/' else c) ∧
    (∀ k bytes, (ofInserts inserts).find? k = some bytes ↔ LastGives inserts k bytes) ∧
    (∀ k, (ofInserts inserts).find? k = none ↔ ∀ given ∈ inserts, internalForm given.1 ≠ k) ∧
    (∀ k, '.' ∈ k.toList → (ofInserts inserts).find? k = none) ∧
    (ofInserts inserts).size = (inserts.map fun given => internalForm given.1).dedup.length ∧
    (∀ before x y after, inserts = before ++ x :: y :: after → internalForm x.1 ≠ internalForm y.1 →
      (ofInserts inserts).find? = (ofInserts (before ++ y :: x :: after)).find? ∧
      (ofInserts inserts).size = (ofInserts (before ++ y :: x :: after)).size) ∧
    (∀ n₁ n₂, internalForm n₁ = internalForm n₂ → ∀ log,
      launchLogging log (ofInserts inserts).find? n₁ = launchLogging log (ofInserts inserts).find? n₂) ∧
    (∀ n log, launchLogging log (ofInserts inserts).find? (internalForm n) =
      launchLogging log (ofInserts inserts).find? n) ∧
    (∀ n name, launch (ofInserts inserts).find? n = .error (.classNotFound name) ↔
      name = internalForm n ∧ ∀ given ∈ inserts, internalForm given.1 ≠ internalForm n) := by
  refine ⟨toList_internalForm, fun k bytes => find?_ofInserts_eq_some, fun k => find?_ofInserts_eq_none,
    fun k hdot => ?_, size_ofInserts inserts, ?_, fun n₁ n₂ h log => launchLogging_congr h log _,
    fun n log => launchLogging_congr (internalForm_internalForm n) log _, fun n name => ?_⟩
  · rw [find?_ofInserts_eq_none]
    rintro given - rfl
    exact no_dot_internalForm given.1 hdot
  · rintro before x y after rfl h
    refine ⟨find?_ofInserts_swap h before after, ?_⟩
    have hswap : (before ++ x :: y :: after).Perm (before ++ y :: x :: after) :=
      (List.Perm.swap y x after).append_left before
    rw [size_ofInserts, size_ofInserts]
    exact (hswap.map _).dedup.length_eq
  · rw [launch_eq_runClass, runClass_eq_classNotFound, find?_ofInserts_eq_none]

/-- Two spellings of one name, with another name inserted between them. -/
def twoSpellings : List (String × Bytes) := [("a.B", [1]), ("C", []), ("a/B", [2])]

theorem twoSpellings_last_wins :
    (ClassPath.ofInserts twoSpellings).find? "a/B" = some [2] ∧ (ClassPath.ofInserts twoSpellings).find? "a.B" = none ∧
      (ClassPath.ofInserts twoSpellings).find? = (ClassPath.ofInserts [("C", []), ("a.B", [1]), ("a/B", [2])]).find? ∧
      (∀ log, launchLogging log (ClassPath.ofInserts twoSpellings).find? "a.B" =
        launchLogging log (ClassPath.ofInserts twoSpellings).find? "a/B") ∧
      launch (ClassPath.ofInserts twoSpellings).find? "a.B.C" = .error (.classNotFound "a/B/C") := by
  obtain ⟨-, -, -, hdot, -, hswap, hlaunch, -, hmissing⟩ := ClassPath.last_insert_wins twoSpellings
  refine ⟨by decide +kernel, hdot "a.B" (by decide +kernel), (hswap [] _ _ _ rfl (by decide +kernel)).1,
    hlaunch "a.B" "a/B" (by decide +kernel), (hmissing "a.B.C" "a/B/C").2 ⟨by decide +kernel, by decide +kernel⟩⟩

end Jvm
