import IncrementalSat.Cdcl.ClauseStore
import IncrementalSat.Proofs.Trail

/-!
# Well-formed clause stores

A clause store is well formed if the literals of each clause are over different atoms that have
room, and the watch list of a literal holds the keys of exactly the clauses that watch it, each
once.  Storing a clause keeps a store well formed, and so do exchanging the watched literals of a
clause and moving a clause from one watch list to another, where the list that a key is taken out
of may be held aside.
-/

set_option autoImplicit false

namespace IncrementalSat.Cdcl

open scoped List

namespace Table

/-- Putting the last entry of a list in the place of another, and then dropping the last, loses only
the other one. -/
theorem drop_dropLast_set_getLast {α : Type} (xs : List α) {i : Nat} (h : i < xs.length)
    (hne : xs ≠ []) :
    ((xs.set i (xs.getLast hne)).dropLast.drop i).Perm (xs.drop (i + 1)) := by
  induction xs generalizing i with
  | nil => exact absurd rfl hne
  | cons a rest ih =>
    cases i with
    | zero =>
      cases rest with
      | nil => simp
      | cons b more =>
        have hlast := List.dropLast_append_getLast (l := b :: more) (by simp)
        simp only [List.set_cons_zero, List.drop_zero, Nat.zero_add, List.drop_succ_cons,
          List.getLast_cons_cons, List.dropLast_cons_cons]
        conv_rhs => rw [← hlast]
        exact (List.perm_append_singleton _ _).symm
    | succ i =>
      have hi : i < rest.length := by simpa using h
      have hrest : rest ≠ [] := by
        rintro rfl
        simp at hi
      have hset : rest.set i (rest.getLast hrest) ≠ [] := by simpa using hrest
      rw [List.getLast_cons hrest, List.set_cons_succ, List.dropLast_cons_of_ne_nil hset,
        List.drop_succ_cons, List.drop_succ_cons]
      exact ih hi hrest

/-- Up to the entry removed a table stays as it is. -/
theorem take_removeSwapping {α : Type} (xs : Array α) {i : Nat} (h : i < xs.size) :
    (removeSwapping xs i h).toList.take i = xs.toList.take i := by
  simp only [removeSwapping, Array.toList_pop, Array.toList_set]
  rw [List.dropLast_eq_take, List.take_take, List.length_set, Array.length_toList,
    Nat.min_eq_left (by omega), List.take_set_of_le le_rfl]

/-- From the entry removed on, the other entries stay, in some order. -/
theorem drop_removeSwapping {α : Type} (xs : Array α) {i : Nat} (h : i < xs.size) :
    ((removeSwapping xs i h).toList.drop i).Perm (xs.toList.drop (i + 1)) := by
  have hlen : i < xs.toList.length := h
  have hne : xs.toList ≠ [] := List.ne_nil_of_length_pos (by omega)
  have hback : xs.back (Nat.zero_lt_of_lt h) = xs.toList.getLast hne := by
    simp [Array.back, List.getLast_eq_getElem]
  rw [removeSwapping, hback, Array.toList_pop, Array.toList_set]
  exact drop_dropLast_set_getLast xs.toList hlen hne

/-- A table is the entry removed and the entries that stay, in some order. -/
theorem perm_removeSwapping {α : Type} (xs : Array α) {i : Nat} (h : i < xs.size) :
    xs.toList.Perm (xs[i] :: (removeSwapping xs i h).toList) := by
  have hlen : i < xs.toList.length := h
  calc xs.toList
      = xs.toList.take i ++ xs[i] :: xs.toList.drop (i + 1) := by
        rw [← Array.getElem_toList, ← List.drop_eq_getElem_cons hlen, List.take_append_drop]
    _ ~ xs[i] :: (xs.toList.take i ++ xs.toList.drop (i + 1)) := List.perm_middle
    _ ~ xs[i] :: ((removeSwapping xs i h).toList.take i ++
          (removeSwapping xs i h).toList.drop i) := by
        rw [take_removeSwapping xs h]
        exact ((drop_removeSwapping xs h).symm.append_left _).cons _
    _ = xs[i] :: (removeSwapping xs i h).toList := by rw [List.take_append_drop]

end Table

/-! ## Clauses -/

namespace Clause

/-- A clause watches its first two literals. -/
def Watches (c : Clause) (l : Literal) : Prop :=
  l = c.first ∨ l = c.second

/-- No two literals of a clause have the same atom. -/
def Apart (c : Clause) : Prop :=
  (c.literals.map Literal.atom).Nodup

/-- A watched literal is a literal of the clause. -/
theorem mem_literals_of_watches {c : Clause} {l : Literal} (h : c.Watches l) :
    l ∈ c.literals := by
  rcases h with rfl | rfl <;> simp [literals]

/-- Two literals of a clause with the same atom are equal. -/
theorem Apart.eq_of_atom_eq {c : Clause} (h : c.Apart) {l m : Literal} (hl : l ∈ c.literals)
    (hm : m ∈ c.literals) (ha : l.atom = m.atom) : l = m :=
  List.inj_on_of_nodup_map h hl hm ha

/-- The watched literals of a clause over different atoms are different. -/
theorem Apart.first_ne_second {c : Clause} (h : c.Apart) : c.first ≠ c.second := by
  intro he
  simp [Apart, literals, he] at h

/-- The clause with the given literal, which it watches, as its second. -/
theorem second_demote {c : Clause} {l : Literal} (h : c.Watches l) : (c.demote l).second = l := by
  unfold demote
  split
  · assumption
  · rename_i hne
    exact (h.resolve_left fun he => hne he.symm).symm

/-- Exchanging the watched literals keeps the literals of a clause, in some order. -/
theorem perm_demote (c : Clause) (l : Literal) : (c.demote l).literals.Perm c.literals := by
  unfold demote
  split
  · exact List.Perm.swap _ _ _
  · exact List.Perm.refl _

/-- Exchanging the watched literals leaves a clause as learnt as it was. -/
@[simp] theorem learnt_demote (c : Clause) (l : Literal) : (c.demote l).learnt = c.learnt := by
  unfold demote
  split <;> rfl

/-- Exchanging the watched literals leaves the same literals watched. -/
theorem watches_demote_iff {c : Clause} {l m : Literal} : (c.demote l).Watches m ↔ c.Watches m := by
  unfold demote Watches
  split
  · exact or_comm
  · exact Iff.rfl

/-- Moving a watch changes the second watched literal for one that is not watched. -/
theorem rewatch_eq {c : Clause} {position : Nat} (h : position < c.others.size) :
    c.rewatch position =
      { c with second := c.others[position], others := c.others.set position c.second } := by
  unfold rewatch
  rw [Array.getElem?_eq_getElem h]
  simp [Array.setIfInBounds, h]

/-- Watching another literal keeps the literals of a clause, in some order. -/
theorem perm_rewatch (c : Clause) (position : Nat) :
    (c.rewatch position).literals.Perm c.literals := by
  by_cases h : position < c.others.size
  · have hlen : position < c.others.toList.length := h
    rw [rewatch_eq h]
    apply List.Perm.cons
    show (c.others[position] :: (c.others.set position c.second).toList).Perm _
    rw [Array.toList_set, ← Array.getElem_toList]
    calc c.others.toList[position] :: c.others.toList.set position c.second
        ~ c.others.toList[position] :: c.second :: c.others.toList.eraseIdx position :=
          (List.set_perm_cons_eraseIdx hlen _).cons _
      _ ~ c.second :: c.others.toList[position] :: c.others.toList.eraseIdx position :=
          List.Perm.swap _ _ _
      _ ~ c.second :: c.others.toList :=
          (List.getElem_cons_eraseIdx_perm hlen).cons _
  · unfold rewatch
    rw [Array.getElem?_eq_none (by omega)]

/-- Watching another literal leaves a clause as learnt as it was. -/
@[simp] theorem learnt_rewatch (c : Clause) (position : Nat) :
    (c.rewatch position).learnt = c.learnt := by
  unfold rewatch
  split <;> rfl

/-- Watching another literal in place of the second leaves the first one watched. -/
@[simp] theorem first_rewatch (c : Clause) (position : Nat) :
    (c.rewatch position).first = c.first := by
  unfold rewatch
  split <;> rfl

/-- The literal that takes over the watch of the second one was not watched. -/
theorem second_rewatch {c : Clause} (h : c.Apart) {position : Nat}
    (hposition : position < c.others.size) :
    (c.rewatch position).second ∈ c.literals ∧ (c.rewatch position).second ≠ c.first ∧
      (c.rewatch position).second ≠ c.second := by
  have hmem : (c.rewatch position).second ∈ c.others.toList := by
    rw [rewatch_eq hposition]
    exact Array.mem_toList_iff.2 (Array.getElem_mem _)
  have hnodup : (c.first :: c.second :: c.others.toList).Nodup := List.Nodup.of_map _ h
  simp only [List.nodup_cons, List.mem_cons, not_or] at hnodup
  refine ⟨List.mem_cons_of_mem _ (List.mem_cons_of_mem _ hmem), ?_, ?_⟩
  · intro he
    exact hnodup.1.2 (he ▸ hmem)
  · intro he
    exact hnodup.2.1 (he ▸ hmem)

/-- After another literal has taken the place of the second, it and the first are watched. -/
theorem watches_rewatch_iff {c : Clause} (h : c.Apart) {position : Nat} {m : Literal} :
    (c.rewatch position).Watches m ↔
      m = (c.rewatch position).second ∨ c.Watches m ∧ m ≠ c.second := by
  have hne := h.first_ne_second
  unfold Watches
  rw [first_rewatch]
  constructor
  · rintro (rfl | hm)
    · exact .inr ⟨.inl rfl, hne⟩
    · exact .inl hm
  · rintro (hm | ⟨hm | hm, hnot⟩)
    · exact .inr hm
    · exact .inl hm
    · exact absurd hm hnot

end Clause

/-! ## Stores -/

namespace ClauseStore

/-- The clause put in the place of another is found under its key. -/
theorem clause_replace_self {s : ClauseStore} {key : Nat} (h : key < s.clauses.size) (c : Clause) :
    (s.replace key c).clause key = c := by
  simp [replace, clause, h]

/-- Putting a clause in the place of another leaves the clauses with other keys. -/
theorem clause_replace_ne {s : ClauseStore} {key k : Nat} (h : k ≠ key) (c : Clause) :
    (s.replace key c).clause k = s.clause k := by
  simp [replace, clause, Array.getElem?_setIfInBounds_ne (Ne.symm h)]

/-- Putting a clause in the place of another leaves the number of clauses. -/
@[simp] theorem size_replace (s : ClauseStore) (key : Nat) (c : Clause) :
    (s.replace key c).clauses.size = s.clauses.size := by
  simp [replace]

/-- The watch list put in place of that of a literal is its watch list. -/
theorem watchers_setWatchers_self {s : ClauseStore} {l : Literal}
    (h : l.code < s.watches.size) (keys : Array Nat) :
    (s.setWatchers l keys).watchers l = keys := by
  simp [setWatchers, watchers, h]

/-- Replacing the watch list of a literal leaves those of the others. -/
theorem watchers_setWatchers_ne {s : ClauseStore} {l m : Literal} (h : m ≠ l)
    (keys : Array Nat) : (s.setWatchers l keys).watchers m = s.watchers m := by
  have hc : l.code ≠ m.code := fun he => h (Literal.code_inj.1 he).symm
  simp [setWatchers, watchers, Array.getElem?_setIfInBounds_ne hc]

/-- A key added to the watch list of a literal comes last there. -/
theorem watchers_watch_self {s : ClauseStore} {l : Literal} (h : l.code < s.watches.size)
    (key : Nat) : (s.watch l key).watchers l = (s.watchers l).push key := by
  simp [watch, watchers, h, Array.getElem_modify_self]

/-- Adding a key to the watch list of a literal leaves those of the others. -/
theorem watchers_watch_ne {s : ClauseStore} {l m : Literal} (h : m ≠ l) (key : Nat) :
    (s.watch l key).watchers m = s.watchers m := by
  have hc : l.code ≠ m.code := fun he => h (Literal.code_inj.1 he).symm
  simp [watch, watchers, Array.getElem?_modify, hc]

/-- Adding a key to a watch list leaves the number of lists. -/
@[simp] theorem size_watches_watch (s : ClauseStore) (l : Literal) (key : Nat) :
    (s.watch l key).watches.size = s.watches.size := by
  simp [watch]

/-- Replacing a watch list leaves the number of lists. -/
@[simp] theorem size_watches_setWatchers (s : ClauseStore) (l : Literal) (keys : Array Nat) :
    (s.setWatchers l keys).watches.size = s.watches.size := by
  simp [setWatchers]

/-- A watch list put aside and back again leaves the store as it was. -/
theorem setWatchers_setWatchers (s : ClauseStore) (l : Literal) (keys more : Array Nat) :
    (s.setWatchers l keys).setWatchers l more = s.setWatchers l more := by
  simp [setWatchers]

/-- Replacing a watch list by itself changes nothing. -/
theorem setWatchers_watchers (s : ClauseStore) (l : Literal) :
    s.setWatchers l (s.watchers l) = s := by
  have h : s.watches.setIfInBounds l.code (s.watchers l) = s.watches := by
    apply Array.ext_getElem?
    intro i
    rw [Array.getElem?_setIfInBounds]
    split
    · rename_i he
      subst he
      split
      · rename_i hlt
        simp [watchers, hlt]
      · rename_i hlt
        rw [Array.getElem?_eq_none (by omega)]
    · rfl
  rw [setWatchers, h]

/-- Watching a literal does not depend on a list put aside for another one. -/
theorem setWatchers_watch_comm {s : ClauseStore} {l m : Literal} (h : m ≠ l) (key : Nat)
    (keys more : Array Nat) :
    ((s.setWatchers l keys).watch m key).setWatchers l more =
      (s.watch m key).setWatchers l more := by
  have hc : l.code ≠ m.code := fun he => h (Literal.code_inj.1 he).symm
  have hw : ((s.watches.setIfInBounds l.code keys).modify m.code fun ks =>
      ks.push key).setIfInBounds l.code more =
        (s.watches.modify m.code fun ks => ks.push key).setIfInBounds l.code more := by
    apply Array.ext_getElem?
    intro i
    simp only [Array.getElem?_setIfInBounds, Array.getElem?_modify, Array.size_modify,
      Array.size_setIfInBounds]
    by_cases hi : l.code = i
    · simp [hi]
    · simp [hi]
  simp only [setWatchers, watch, hw]

/-- The watch lists made for a further atom are empty, as they were taken to be. -/
@[simp] theorem watchers_ensure (s : ClauseStore) (atom : Nat) (l : Literal) :
    (s.ensure atom).watchers l = s.watchers l := by
  simp only [ensure, watchers, Table.getD_extend]

/-- Storing a clause makes their number one greater. -/
@[simp] theorem size_attach (s : ClauseStore) (first second : Literal) (others : List Literal)
    (learnt : Bool) : (s.attach first second others learnt).clauses.size = s.clauses.size + 1 := by
  simp [attach, watch]

/-- A stored clause is found under the key that was next. -/
theorem clause_attach_self (s : ClauseStore) (first second : Literal) (others : List Literal)
    (learnt : Bool) : (s.attach first second others learnt).clause s.clauses.size =
      ⟨first, second, others.toArray, learnt⟩ := by
  simp [attach, watch, clause]

/-- Storing a clause leaves the clauses stored before. -/
theorem clause_attach_of_lt {s : ClauseStore} {key : Nat} (h : key < s.clauses.size)
    (first second : Literal) (others : List Literal) (learnt : Bool) :
    (s.attach first second others learnt).clause key = s.clause key := by
  simp [attach, watch, clause, Array.getElem?_push, Nat.ne_of_lt h]

/-- What holds of every clause holds with one more clause stored if it holds of that one. -/
theorem forall_attach_iff {s : ClauseStore} {first second : Literal} {others : List Literal}
    {learnt : Bool} (P : Clause → Prop) :
    (∀ key < (s.attach first second others learnt).clauses.size,
        P ((s.attach first second others learnt).clause key)) ↔
      (∀ key < s.clauses.size, P (s.clause key)) ∧ P ⟨first, second, others.toArray, learnt⟩ := by
  rw [size_attach]
  constructor
  · intro h
    constructor
    · intro key hkey
      rw [← clause_attach_of_lt hkey first second others learnt]
      exact h key (by omega)
    · rw [← clause_attach_self s first second others learnt]
      exact h s.clauses.size (Nat.lt_succ_self _)
  · rintro ⟨hold, hnew⟩ key hkey
    rcases Nat.lt_succ_iff_lt_or_eq.1 hkey with hlt | rfl
    · rw [clause_attach_of_lt hlt]
      exact hold key hlt
    · rw [clause_attach_self]
      exact hnew

/-- What holds of the clauses stored holds with one of them replaced if it holds of the new one. -/
theorem forall_replace {s : ClauseStore} {key : Nat} {c : Clause} (P : Clause → Prop)
    (hold : ∀ k < s.clauses.size, k ≠ key → P (s.clause k)) (hnew : P c) :
    ∀ k < (s.replace key c).clauses.size, P ((s.replace key c).clause k) := by
  intro k hk
  rw [size_replace] at hk
  by_cases he : k = key
  · subst he
    rw [clause_replace_self hk]
    exact hnew
  · rw [clause_replace_ne he]
    exact hold k hk he

/-! ### Watch lists -/

/-- Adding a key that is not there keeps the keys of a list distinct. -/
theorem nodup_push {keys : Array Nat} {key : Nat} (h : keys.toList.Nodup) (hkey : key ∉ keys) :
    (keys.push key).toList.Nodup := by
  rw [Array.toList_push, List.nodup_append]
  refine ⟨h, List.nodup_singleton _, ?_⟩
  rintro k hk _ hk' rfl
  obtain rfl := List.mem_singleton.1 hk'
  exact hkey (Array.mem_toList_iff.1 hk)

/-- A key that is moved between watch lists is taken out of one and added to the other. -/
structure Moved (s r : ClauseStore) (key : Nat) (source target : Literal) : Prop where
  ne : target ≠ source
  taken : (s.watchers source).toList ~ key :: (r.watchers source).toList
  given : r.watchers target = (s.watchers target).push key
  others : ∀ l, l ≠ source → l ≠ target → r.watchers l = s.watchers l

namespace Moved

variable {s r : ClauseStore} {key : Nat} {source target : Literal}

/-- Moving a key to a list without it keeps the keys of each list distinct. -/
theorem nodup_watchers (h : Moved s r key source target) (hs : ∀ l, (s.watchers l).toList.Nodup)
    (hnew : key ∉ s.watchers target) (l : Literal) : (r.watchers l).toList.Nodup := by
  by_cases hsource : l = source
  · subst hsource
    exact (List.nodup_cons.1 (h.taken.nodup_iff.1 (hs l))).2
  by_cases htarget : l = target
  · subst htarget
    rw [h.given]
    exact nodup_push (hs l) hnew
  · rw [h.others l hsource htarget]
    exact hs l

/-- The key moved is in the watch list that it was moved to and not in the other. -/
theorem self_mem_watchers_iff (h : Moved s r key source target)
    (hs : ∀ l, (s.watchers l).toList.Nodup) (l : Literal) :
    key ∈ r.watchers l ↔ l = target ∨ key ∈ s.watchers l ∧ l ≠ source := by
  by_cases hsource : l = source
  · subst hsource
    have hnot := (List.nodup_cons.1 (h.taken.nodup_iff.1 (hs l))).1
    rw [Array.mem_toList_iff] at hnot
    simp [hnot, h.ne.symm]
  by_cases htarget : l = target
  · subst htarget
    rw [h.given]
    simp
  · rw [h.others l hsource htarget]
    simp [hsource, htarget]

/-- Moving a key leaves the other keys in their lists. -/
theorem mem_watchers_iff_of_ne (h : Moved s r key source target) {k : Nat} (hk : k ≠ key)
    (l : Literal) : k ∈ r.watchers l ↔ k ∈ s.watchers l := by
  by_cases hsource : l = source
  · subst hsource
    rw [← Array.mem_toList_iff, ← Array.mem_toList_iff, h.taken.mem_iff, List.mem_cons]
    simp [hk]
  by_cases htarget : l = target
  · subst htarget
    rw [h.given, Array.mem_push]
    simp [hk]
  · rw [h.others l hsource htarget]

end Moved

/-- A key is moved by adding it to a list and putting the other list back without it. -/
theorem moved_watch_setWatchers {s : ClauseStore} {source target : Literal} (hne : target ≠ source)
    (hsource : source.code < s.watches.size) (htarget : target.code < s.watches.size) {index : Nat}
    (hindex : index < (s.watchers source).size) :
    Moved s ((s.watch target (s.watchers source)[index]).setWatchers source
      (Table.removeSwapping (s.watchers source) index hindex)) (s.watchers source)[index]
      source target where
  ne := hne
  taken := by
    rw [watchers_setWatchers_self (by rwa [size_watches_watch])]
    exact Table.perm_removeSwapping _ hindex
  given := by rw [watchers_setWatchers_ne hne, watchers_watch_self htarget]
  others l hls hlt := by rw [watchers_setWatchers_ne hls, watchers_watch_ne hlt]

/-- Storing a clause adds its key to the watch lists of its first two literals and no others. -/
theorem mem_watchers_attach_iff {s : ClauseStore} {first second : Literal} (hne : second ≠ first)
    (hfirst : first.code < s.watches.size) (hsecond : second.code < s.watches.size)
    (others : List Literal) (learnt : Bool) (l : Literal) (key : Nat) :
    key ∈ (s.attach first second others learnt).watchers l ↔
      key ∈ s.watchers l ∨ key = s.clauses.size ∧ (l = first ∨ l = second) := by
  show key ∈ ((s.watch first s.clauses.size).watch second s.clauses.size).watchers l ↔ _
  by_cases hlf : l = first
  · subst hlf
    rw [watchers_watch_ne hne.symm, watchers_watch_self hfirst, Array.mem_push]
    simp
  by_cases hls : l = second
  · subst hls
    rw [watchers_watch_self (by rwa [size_watches_watch]), watchers_watch_ne hne, Array.mem_push]
    simp
  · rw [watchers_watch_ne hls, watchers_watch_ne hlf]
    simp [hlf, hls]

/-- Storing a clause under a key that no list holds keeps the keys of each list distinct. -/
theorem nodup_watchers_attach {s : ClauseStore} {first second : Literal} (hne : second ≠ first)
    (hfirst : first.code < s.watches.size) (hsecond : second.code < s.watches.size)
    (others : List Literal) (learnt : Bool) (hs : ∀ l, (s.watchers l).toList.Nodup)
    (hnew : ∀ l, s.clauses.size ∉ s.watchers l) (l : Literal) :
    ((s.attach first second others learnt).watchers l).toList.Nodup := by
  show (((s.watch first s.clauses.size).watch second s.clauses.size).watchers l).toList.Nodup
  by_cases hlf : l = first
  · subst hlf
    rw [watchers_watch_ne hne.symm, watchers_watch_self hfirst]
    exact nodup_push (hs l) (hnew l)
  by_cases hls : l = second
  · subst hls
    rw [watchers_watch_self (by rwa [size_watches_watch]), watchers_watch_ne hne]
    exact nodup_push (hs l) (hnew l)
  · rw [watchers_watch_ne hls, watchers_watch_ne hlf]
    exact hs l

/-! ### Well-formedness -/

/-- The clauses are over different atoms that have room, and the watch lists hold the keys of the
clauses that watch each literal, each once. -/
structure WellFormed (s : ClauseStore) (atoms : Nat) : Prop where
  /-- There is a watch list for each literal. -/
  size_watches : s.watches.size = 2 * atoms
  apart : ∀ key < s.clauses.size, (s.clause key).Apart
  atom_lt : ∀ key < s.clauses.size, ∀ l ∈ (s.clause key).literals, l.atom < atoms
  nodup_watchers : ∀ l, (s.watchers l).toList.Nodup
  mem_watchers_iff : ∀ l key,
    key ∈ s.watchers l ↔ key < s.clauses.size ∧ (s.clause key).Watches l

namespace WellFormed

variable {s : ClauseStore} {atoms : Nat}

/-- There is a watch list for each literal of an atom with room. -/
theorem code_lt (h : s.WellFormed atoms) {l : Literal} (hl : l.atom < atoms) :
    l.code < s.watches.size := by
  rw [h.size_watches, Literal.code]
  split <;> omega

/-- A literal that some clause watches has room. -/
theorem atom_lt_of_mem (h : s.WellFormed atoms) {l : Literal} {key : Nat}
    (hkey : key ∈ s.watchers l) : l.atom < atoms := by
  obtain ⟨hlt, hw⟩ := (h.mem_watchers_iff l key).1 hkey
  exact h.atom_lt key hlt l (Clause.mem_literals_of_watches hw)

/-- The store without clauses is well formed. -/
theorem empty : ({} : ClauseStore).WellFormed 0 where
  size_watches := rfl
  apart key hkey := by simp at hkey
  atom_lt key hkey := by simp at hkey
  nodup_watchers l := by simp [watchers]
  mem_watchers_iff l key := by simp [watchers]

/-- Room for more atoms keeps the store well formed. -/
theorem ensure (h : s.WellFormed atoms) (atom : Nat) :
    (s.ensure atom).WellFormed (max atoms (atom + 1)) where
  size_watches := by
    simp only [ClauseStore.ensure, Table.size_extend, h.size_watches]
    omega
  apart := h.apart
  atom_lt key hkey l hl := lt_of_lt_of_le (h.atom_lt key hkey l hl) (le_max_left _ _)
  nodup_watchers l := by
    rw [watchers_ensure]
    exact h.nodup_watchers l
  mem_watchers_iff l key := by
    rw [watchers_ensure]
    exact h.mem_watchers_iff l key

section Replace

variable {key : Nat} {c : Clause}

/-- Clauses over different atoms stay so when one is rearranged. -/
theorem apart_replace (h : s.WellFormed atoms) (hkey : key < s.clauses.size)
    (hperm : c.literals ~ (s.clause key).literals) :
    ∀ k < (s.replace key c).clauses.size, ((s.replace key c).clause k).Apart := by
  apply forall_replace Clause.Apart
  · intro k hk _
    exact h.apart k hk
  · rw [Clause.Apart, (hperm.map Literal.atom).nodup_iff]
    exact h.apart key hkey

/-- The literals of all clauses have room when one clause is rearranged. -/
theorem atom_lt_replace (h : s.WellFormed atoms) (hkey : key < s.clauses.size)
    (hperm : c.literals ~ (s.clause key).literals) :
    ∀ k < (s.replace key c).clauses.size, ∀ l ∈ ((s.replace key c).clause k).literals,
      l.atom < atoms := by
  apply forall_replace fun c => ∀ l ∈ c.literals, l.atom < atoms
  · intro k hk _
    exact h.atom_lt k hk
  · intro l hl
    exact h.atom_lt key hkey l (hperm.mem_iff.1 hl)

/-- A clause may be replaced by one with the same literals that watches the same ones. -/
theorem replace (h : s.WellFormed atoms) (hkey : key < s.clauses.size)
    (hperm : c.literals ~ (s.clause key).literals)
    (hwatch : ∀ l, c.Watches l ↔ (s.clause key).Watches l) :
    (s.replace key c).WellFormed atoms where
  size_watches := h.size_watches
  apart := h.apart_replace hkey hperm
  atom_lt := h.atom_lt_replace hkey hperm
  nodup_watchers := h.nodup_watchers
  mem_watchers_iff l k := by
    rw [size_replace]
    refine (h.mem_watchers_iff l k).trans (and_congr_right fun hk => ?_)
    by_cases he : k = key
    · subst he
      rw [clause_replace_self hk, hwatch]
    · rw [clause_replace_ne he]

/-- A clause may be replaced by one with the same literals that watches a literal in place of
another, if its key is moved between the watch lists of the two. -/
theorem moved (h : s.WellFormed atoms) (hkey : key < s.clauses.size)
    (hperm : c.literals ~ (s.clause key).literals) {source target : Literal}
    (hwatch : ∀ l, c.Watches l ↔ l = target ∨ (s.clause key).Watches l ∧ l ≠ source)
    (hnew : ¬ (s.clause key).Watches target) {r : ClauseStore}
    (hmoved : Moved s r key source target) (hsize : r.watches.size = s.watches.size)
    (hclauses : r.clauses = (s.replace key c).clauses) : r.WellFormed atoms := by
  have hclause : ∀ k, r.clause k = (s.replace key c).clause k := by
    intro k
    rw [clause, hclauses, clause]
  refine { size_watches := hsize.trans h.size_watches, apart := ?_, atom_lt := ?_,
           nodup_watchers := ?_, mem_watchers_iff := ?_ }
  · intro k hk
    rw [hclause]
    exact h.apart_replace hkey hperm k (hclauses ▸ hk)
  · intro k hk
    rw [hclause]
    exact h.atom_lt_replace hkey hperm k (hclauses ▸ hk)
  · apply hmoved.nodup_watchers h.nodup_watchers
    rw [h.mem_watchers_iff]
    exact fun hw => hnew hw.2
  · intro l k
    rw [hclause, hclauses, size_replace]
    by_cases he : k = key
    · subst he
      rw [clause_replace_self hkey, hmoved.self_mem_watchers_iff h.nodup_watchers,
        h.mem_watchers_iff, hwatch]
      simp only [hkey, true_and]
    · rw [clause_replace_ne he, hmoved.mem_watchers_iff_of_ne he, h.mem_watchers_iff]

end Replace

/-- A clause may be moved from the list of its second watched literal to that of a literal which it
does not watch. -/
theorem move (h : s.WellFormed atoms) {l : Literal} {keys : Array Nat} (hkeys : s.watchers l = keys)
    {index position : Nat} (hindex : index < keys.size) {c : Clause}
    (hc : c = (s.clause keys[index]).demote l) (hposition : position < c.others.size) :
    (((s.replace keys[index] (c.rewatch position)).watch
        (c.rewatch position).second keys[index]).setWatchers l
      (Table.removeSwapping keys index hindex)).WellFormed atoms := by
  subst hkeys
  have hmem : (s.watchers l)[index] ∈ s.watchers l := Array.getElem_mem hindex
  obtain ⟨hkey, hwl⟩ := (h.mem_watchers_iff l _).1 hmem
  have hsecond : c.second = l := hc ▸ Clause.second_demote hwl
  have hperm : c.literals ~ (s.clause (s.watchers l)[index]).literals :=
    hc ▸ Clause.perm_demote _ _
  have hwatches : ∀ m, (s.clause (s.watchers l)[index]).Watches m ↔ c.Watches m := by
    intro m
    rw [hc, Clause.watches_demote_iff]
  have hapart : c.Apart := by
    rw [Clause.Apart, (hperm.map Literal.atom).nodup_iff]
    exact h.apart _ hkey
  obtain ⟨htarget, hfirst, hne⟩ := Clause.second_rewatch hapart hposition
  rw [hsecond] at hne
  have hsource : l.code < s.watches.size := h.code_lt (h.atom_lt_of_mem hmem)
  have hroom : (c.rewatch position).second.code < s.watches.size :=
    h.code_lt (h.atom_lt _ hkey _ (hperm.mem_iff.1 htarget))
  have hmoved := moved_watch_setWatchers hne hsource hroom hindex
  refine h.moved hkey ((Clause.perm_rewatch c position).trans hperm) ?_ ?_
    ⟨hmoved.ne, hmoved.taken, hmoved.given, hmoved.others⟩ ?_ rfl
  · intro m
    rw [Clause.watches_rewatch_iff hapart, hwatches, hsecond]
  · rw [hwatches]
    rintro (he | he)
    · exact hfirst he
    · exact hne (he.trans hsecond)
  · rw [size_watches_setWatchers, size_watches_watch]
    rfl

/-- Storing a clause over different atoms with room keeps the store well formed. -/
theorem attach (h : s.WellFormed atoms) {first second : Literal} {others : List Literal}
    {learnt : Bool} (hapart : ((first :: second :: others).map Literal.atom).Nodup)
    (hroom : ∀ l ∈ first :: second :: others, l.atom < atoms) :
    (s.attach first second others learnt).WellFormed atoms := by
  have hne : second ≠ first := by
    rintro rfl
    simp at hapart
  have hfirst := h.code_lt (hroom first (by simp))
  have hsecond := h.code_lt (hroom second (by simp))
  have hnew : ∀ l, s.clauses.size ∉ s.watchers l := by
    intro l hm
    exact absurd ((h.mem_watchers_iff l _).1 hm).1 (lt_irrefl _)
  refine
    { size_watches := ?_
      apart := (forall_attach_iff Clause.Apart).2 ⟨h.apart, hapart⟩
      atom_lt :=
        (forall_attach_iff fun c => ∀ l ∈ c.literals, l.atom < atoms).2 ⟨h.atom_lt, hroom⟩
      nodup_watchers :=
        nodup_watchers_attach hne hfirst hsecond others learnt h.nodup_watchers hnew
      mem_watchers_iff := ?_ }
  · show ((s.watch first s.clauses.size).watch second s.clauses.size).watches.size = _
    rw [size_watches_watch, size_watches_watch]
    exact h.size_watches
  · intro l key
    rw [mem_watchers_attach_iff hne hfirst hsecond, size_attach]
    by_cases hkey : key = s.clauses.size
    · subst hkey
      rw [clause_attach_self]
      simp [hnew l, Clause.Watches]
    · simp only [hkey, false_and, or_false]
      rw [h.mem_watchers_iff]
      constructor
      · rintro ⟨hlt, hw⟩
        rw [clause_attach_of_lt hlt]
        exact ⟨by omega, hw⟩
      · rintro ⟨hlt, hw⟩
        have hlt' : key < s.clauses.size := by omega
        rw [clause_attach_of_lt hlt'] at hw
        exact ⟨hlt', hw⟩

end WellFormed

end ClauseStore

end IncrementalSat.Cdcl
