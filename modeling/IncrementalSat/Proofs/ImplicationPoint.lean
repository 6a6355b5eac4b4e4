import IncrementalSat.Proofs.UnitClosure

/-!
# Conflict analysis finds the first implication point

On the way back along the trail from a conflict, the false clause is resolved with the reason of
each literal whose negation it holds.  The first implication point is the first literal at which the
clause resolved so far has no other literal of the present level.  The analysis learns that clause
without its literals of level zero: its marks and its list of lower literals keep track of the
clause, and the walk ends at the first implication point, so that it never comes to a literal
without a reason before.
-/

set_option autoImplicit false

namespace IncrementalSat.Cdcl

/-! ## Resolution along the trail -/

/-- The resolvent, on a literal, of a clause that holds its negation and one that holds it. -/
def resolvent (c d : List Literal) (l : Literal) : List Literal :=
  c.filter (fun m => m ≠ l.negate) ++ d.filter fun m => m ≠ l

/-- A clause once a walk has passed a literal of the trail: resolved with the reason of the literal
if it holds its negation. -/
def resolveAt (t : Trail) (s : ClauseStore) (c : List Literal) (l : Literal) : List Literal :=
  if l.negate ∈ c then
    match t.reasonOf l.atom with
    | none => c
    | some key => resolvent c (s.clause key).literals l
  else c

/-- A clause once a walk has passed literals of the trail, one after another. -/
def resolvedAlong (t : Trail) (s : ClauseStore) (c walked : List Literal) : List Literal :=
  walked.foldl (resolveAt t s) c

/-- A literal is the first implication point on the way back from a false clause, and a clause the
one resolved up to there.  At each literal passed before, the clause resolved so far had another
literal of the present level, and a reason was at hand if it held the negation of the literal. -/
structure FirstPoint (t : Trail) (s : ClauseStore) (clause : List Literal) (point : Literal)
    (resolved : List Literal) : Prop where
  passed : ∃ later earlier, t.backwards = later ++ point :: earlier ∧
    resolved = resolvedAlong t s clause later ∧
    ∀ before l after, later = before ++ l :: after →
      (∃ m ∈ resolvedAlong t s clause before, m ≠ l.negate ∧ t.levelOf m.atom = t.level) ∧
      (l.negate ∈ resolvedAlong t s clause before → t.reasonOf l.atom ≠ none)
  mem : point.negate ∈ resolved
  level : t.levelOf point.atom = t.level
  only : ∀ m ∈ resolved, m ≠ point.negate → t.levelOf m.atom ≠ t.level

/-- Resolving along a walk of one more literal is one more resolution. -/
theorem resolvedAlong_append (t : Trail) (s : ClauseStore) (c walked : List Literal)
    (l : Literal) :
    resolvedAlong t s c (walked ++ [l]) = resolveAt t s (resolvedAlong t s c walked) l := by
  rw [resolvedAlong, List.foldl_append]
  rfl

/-- The atoms of a resolvent are those of both clauses, but for the one resolved on. -/
theorem exists_mem_resolvent_iff {c d : List Literal} {l : Literal}
    (hc : ∀ m ∈ c, m.atom = l.atom → m = l.negate) (hd : ∀ m ∈ d, m.atom = l.atom → m = l)
    {a : Nat} :
    (∃ m ∈ resolvent c d l, m.atom = a) ↔
      l.atom ≠ a ∧ ((∃ m ∈ c, m.atom = a) ∨ ∃ m ∈ d, m.atom = a) := by
  unfold resolvent
  constructor
  · rintro ⟨m, hm, rfl⟩
    rcases List.mem_append.1 hm with hm | hm
    · obtain ⟨hm, hne⟩ := List.mem_filter.1 hm
      exact ⟨fun he => (of_decide_eq_true hne) (hc m hm he.symm), .inl ⟨m, hm, rfl⟩⟩
    · obtain ⟨hm, hne⟩ := List.mem_filter.1 hm
      exact ⟨fun he => (of_decide_eq_true hne) (hd m hm he.symm), .inr ⟨m, hm, rfl⟩⟩
  · rintro ⟨hne, ⟨m, hm, rfl⟩ | ⟨m, hm, rfl⟩⟩
    · refine ⟨m, List.mem_append_left _ (List.mem_filter.2 ⟨hm, decide_eq_true ?_⟩), rfl⟩
      exact fun he => hne (by rw [he, Literal.atom_negate])
    · refine ⟨m, List.mem_append_right _ (List.mem_filter.2 ⟨hm, decide_eq_true ?_⟩), rfl⟩
      exact fun he => hne (by rw [he])

/-! ## The marks of a resolution -/

/-- Taking in a literal marks its atom, unless it is of level zero. -/
theorem seen_absorb (t : Trail) (r : Resolvent) {l : Literal} (hroom : l.atom < r.seen.size) :
    (r.absorb t l).seen.size = r.seen.size ∧
      ∀ a, (r.absorb t l).seen.getD a false = true ↔
        r.seen.getD a false = true ∨ (0 < t.levelOf a ∧ l.atom = a) := by
  have hmarked : ∀ a, (r.seen.setIfInBounds l.atom true).getD a false = true ↔
      r.seen.getD a false = true ∨ l.atom = a := by
    intro a
    rw [getD_setMark hroom]
    split
    · simp_all
    · simp_all
  unfold Resolvent.absorb
  by_cases hskip : (r.seen.getD l.atom false || t.levelOf l.atom == 0) = true
  · rw [if_pos hskip]
    refine ⟨rfl, fun a => ⟨.inl, ?_⟩⟩
    rintro (hseen | ⟨hpos, rfl⟩)
    · exact hseen
    · simpa [hpos.ne'] using hskip
  · rw [if_neg hskip]
    have hpos : 0 < t.levelOf l.atom := by
      rw [Bool.or_eq_true, not_or] at hskip
      exact Nat.pos_of_ne_zero (by simpa using hskip.2)
    have hiff : ∀ a, (r.seen.setIfInBounds l.atom true).getD a false = true ↔
        r.seen.getD a false = true ∨ (0 < t.levelOf a ∧ l.atom = a) := by
      intro a
      rw [hmarked]
      exact or_congr_right ⟨fun he => ⟨he ▸ hpos, he⟩, And.right⟩
    dsimp only
    split
    · exact ⟨Array.size_setIfInBounds, hiff⟩
    · exact ⟨Array.size_setIfInBounds, hiff⟩

/-- Absorbing literals marks those of their atoms that have values above level zero. -/
theorem seen_foldl_absorb (t : Trail) (c : List Literal) (r : Resolvent)
    (hroom : ∀ l ∈ c, l.atom < r.seen.size) (a : Nat) :
    (c.foldl (fun r l => r.absorb t l) r).seen.getD a false = true ↔
      r.seen.getD a false = true ∨ (0 < t.levelOf a ∧ ∃ m ∈ c, m.atom = a) := by
  induction c generalizing r with
  | nil => simp
  | cons l rest ih =>
    obtain ⟨hsize, hseen⟩ := seen_absorb t r (hroom l List.mem_cons_self)
    rw [List.foldl_cons, ih (r.absorb t l) fun m hm => hsize ▸ hroom m (List.mem_cons_of_mem l hm),
      hseen, List.exists_mem_cons_iff, or_assoc]
    exact or_congr_right and_or_left.symm

/-- Taking in a clause marks its atoms above level zero, but for the one resolved on. -/
theorem seen_resolve (t : Trail) (c : Clause) (pivot : Option Nat) (r : Resolvent)
    (hroom : ∀ l ∈ c.literals, l.atom < r.seen.size) (a : Nat) :
    (r.resolve t c pivot).seen.getD a false = true ↔
      r.seen.getD a false = true ∨
        (0 < t.levelOf a ∧ pivot ≠ some a ∧ ∃ m ∈ c.literals, m.atom = a) := by
  rw [Resolving.resolve_eq, seen_foldl_absorb t _ r fun l hl => hroom l (List.mem_filter.1 hl).1]
  refine or_congr_right (and_congr_right fun _ => ?_)
  constructor
  · rintro ⟨m, hm, rfl⟩
    obtain ⟨hm, hne⟩ := List.mem_filter.1 hm
    exact ⟨of_decide_eq_true hne, m, hm, rfl⟩
  · rintro ⟨hne, m, hm, rfl⟩
    exact ⟨m, List.mem_filter.2 ⟨hm, decide_eq_true hne⟩, rfl⟩

/-! ## Resolvents that track a clause -/

/-- A resolution tracks a clause: the literals of the clause are false, and the atoms marked are
those of its literals above level zero. -/
structure Tracks (t : Trail) (c : List Literal) (r : Resolvent) : Prop where
  negate_mem : ∀ m ∈ c, m.negate ∈ t.literals
  seen_iff : ∀ a, r.seen.getD a false = true ↔ 0 < t.levelOf a ∧ ∃ m ∈ c, m.atom = a

namespace Tracks

variable {t : Trail} {s : ClauseStore} {rest present c : List Literal} {r : Resolvent}
  {l : Literal}

/-- False literals of one atom are the same. -/
theorem eq_of_atom_eq (h : Tracks t c r) (hwf : t.WellFormed) {m : Literal} (hm : m ∈ c)
    (hl : l.negate ∈ t.literals) (ha : m.atom = l.atom) : m = l :=
  Literal.negate_inj.1 (hwf.eq_of_atom_eq (h.negate_mem m hm) hl (by simpa using ha))

/-- What has been taken in is the clause without its literals of level zero. -/
theorem mem_iff (h : Tracks t c r) (hr : Resolving t s rest [] present r) (hwf : t.WellFormed)
    (hrest : rest <:+ t.backwards) {m : Literal} :
    m ∈ present ++ r.lower.toList ↔ m ∈ c ∧ 0 < t.levelOf m.atom := by
  constructor
  · intro hm
    obtain ⟨hpos, k, hk, ha⟩ := (h.seen_iff m.atom).1 ((hr.seen_iff m.atom).2 ⟨m, hm, rfl⟩)
    exact ⟨h.eq_of_atom_eq hwf hk (hr.negate_mem hrest hm) ha ▸ hk, hpos⟩
  · rintro ⟨hm, hpos⟩
    exact hr.mem_of_seen hwf hrest (h.negate_mem m hm) ((h.seen_iff m.atom).2 ⟨hpos, m, hm, rfl⟩)

/-- The literals of the present level in the clause are those waited for. -/
theorem mem_present_iff (h : Tracks t c r) (hr : Resolving t s rest [] present r)
    (hwf : t.WellFormed) (hrest : rest <:+ t.backwards) (hlevel : 0 < t.level) {m : Literal} :
    m ∈ present ↔ m ∈ c ∧ t.levelOf m.atom = t.level := by
  constructor
  · intro hm
    exact ⟨((h.mem_iff hr hwf hrest).1 (List.mem_append_left _ hm)).1, (hr.waiting m hm).2⟩
  · rintro ⟨hm, hself⟩
    have htaken := (h.mem_iff hr hwf hrest).2 ⟨hm, hself.symm ▸ hlevel⟩
    refine (List.mem_append.1 htaken).resolve_right fun hlower => ?_
    exact (hr.beneath m hlower).2.2.ne hself

/-- The false clause is tracked from the start. -/
theorem start {key : Nat} {seen : Array Bool} (hwf : t.WellFormed)
    (hseen : Unmarked seen t.atoms) (hkey : Falsified t s key) (activity : Activity) :
    Tracks t (s.clause key).literals
      (Resolvent.resolve t (s.clause key) none ⟨seen, activity, #[], 0⟩) where
  negate_mem := hkey.negate_mem
  seen_iff a := by
    have hroom : ∀ l ∈ (s.clause key).literals, l.atom < seen.size := fun l hl =>
      hseen.size_eq ▸ hwf.atom_lt_of_negate (hkey.negate_mem l hl)
    rw [seen_resolve t _ _ _ hroom]
    simp [hseen.getD_eq a]

/-- A literal that is passed by is not in the clause: it is of the present level, as one that is
waited for comes after it. -/
theorem negate_not_mem {earlier : List Literal} (h : Tracks t c r)
    (hr : Resolving t s (l :: earlier) [] present r) (hwf : t.WellFormed)
    (hrest : l :: earlier <:+ t.backwards) (hlevel : 0 < t.level) (hne : present ≠ [])
    (hseen : r.seen.getD l.atom false = false) : l.negate ∉ c := by
  intro hmem
  obtain ⟨m, hm⟩ := List.exists_mem_of_ne_nil present hne
  obtain ⟨hplace, hself⟩ := hr.waiting m hm
  have hpos : 0 < t.levelOf l.atom := by
    rcases List.mem_cons.1 hplace with rfl | hplace
    · rw [Literal.atom_negate]
      omega
    · have hle := hwf.levelOf_le_of_mem_earlier hrest hplace
      rw [Literal.atom_negate] at hle
      omega
  have hmarked := (h.seen_iff l.atom).2 ⟨hpos, l.negate, hmem, Literal.atom_negate l⟩
  rw [hseen] at hmarked
  cases hmarked

/-- Resolving with the reason of a literal tracks the resolvent. -/
theorem resolve {earlier : List Literal} {key : Nat} (h : Tracks t c r)
    (hr : Resolving t s (l :: earlier) [] present r) (hc : Coherent t s)
    (hrest : l :: earlier <:+ t.backwards) (hforces : Forces t s key l earlier) (pending : Nat) :
    Tracks t (resolvent c (s.clause key).literals l)
      (Resolvent.resolve t (s.clause key) (some l.atom)
        { r with seen := r.seen.setIfInBounds l.atom false, pending := pending }) where
  negate_mem m hm := by
    rcases List.mem_append.1 hm with hm | hm
    · exact h.negate_mem m (List.mem_filter.1 hm).1
    · obtain ⟨hm, hne⟩ := List.mem_filter.1 hm
      exact Trail.mem_of_mem_earlier hrest (hforces.others m hm (of_decide_eq_true hne))
  seen_iff a := by
    have hl : l ∈ t.literals := Trail.mem_of_suffix hrest
    have hroom : l.atom < r.seen.size := hr.size_eq ▸ hc.trail.atom_lt hl
    have hreason : ∀ m ∈ (s.clause key).literals, m.atom < r.seen.size := fun m hm =>
      hr.size_eq ▸ hc.store.atom_lt key hforces.key_lt m hm
    rw [seen_resolve t _ _ _ (by simpa using hreason), exists_mem_resolvent_iff
      (fun m hm ha => h.eq_of_atom_eq hc.trail hm (by simpa using hl) (by simpa using ha))
      (fun m hm ha => (hc.store.apart key hforces.key_lt).eq_of_atom_eq hm hforces.mem ha),
      getD_setMark hroom]
    by_cases ha : l.atom = a
    · simp [ha]
    · rw [if_neg ha, h.seen_iff]
      simp only [ne_eq, Option.some.injEq, ha, not_false_eq_true, true_and]
      exact and_or_left.symm

end Tracks

/-! ## The walk -/

/-- A walk has passed literals of the trail on the way back from a false clause. -/
structure WalkedBack (t : Trail) (s : ClauseStore) (clause later rest : List Literal)
    (r : Resolvent) : Prop where
  backwards_eq : t.backwards = later ++ rest
  tracks : Tracks t (resolvedAlong t s clause later) r
  passed : ∀ before l after, later = before ++ l :: after →
    (∃ m ∈ resolvedAlong t s clause before, m ≠ l.negate ∧ t.levelOf m.atom = t.level) ∧
    (l.negate ∈ resolvedAlong t s clause before → t.reasonOf l.atom ≠ none)

namespace WalkedBack

variable {t : Trail} {s : ClauseStore} {clause later earlier present : List Literal}
  {l : Literal} {r r' : Resolvent}

/-- One more literal may be passed if the clause resolved so far has another literal of the present
level. -/
theorem step (h : WalkedBack t s clause later (l :: earlier) r)
    (hother : ∃ m ∈ resolvedAlong t s clause later, m ≠ l.negate ∧ t.levelOf m.atom = t.level)
    (hreason : l.negate ∈ resolvedAlong t s clause later → t.reasonOf l.atom ≠ none)
    (htracks : Tracks t (resolveAt t s (resolvedAlong t s clause later) l) r') :
    WalkedBack t s clause (later ++ [l]) earlier r' where
  backwards_eq := by rw [h.backwards_eq, List.append_assoc, List.singleton_append]
  tracks := by
    rw [resolvedAlong_append]
    exact htracks
  passed before m after heq := by
    rcases List.eq_nil_or_concat after with rfl | ⟨after, last, rfl⟩
    · obtain ⟨rfl, hlast⟩ := List.append_inj' heq rfl
      obtain rfl := List.singleton_inj.1 hlast
      exact ⟨hother, hreason⟩
    · rw [List.concat_eq_append, ← List.cons_append, ← List.append_assoc] at heq
      exact h.passed before m after (List.append_inj' heq rfl).1

/-- The walk passes by a literal that is not in the clause. -/
theorem pass (h : WalkedBack t s clause later (l :: earlier) r)
    (hr : Resolving t s (l :: earlier) [] present r) (hwf : t.WellFormed)
    (hrest : l :: earlier <:+ t.backwards) (hlevel : 0 < t.level) (hne : present ≠ [])
    (hseen : r.seen.getD l.atom false = false) :
    WalkedBack t s clause (later ++ [l]) earlier r := by
  have hnot := h.tracks.negate_not_mem hr hwf hrest hlevel hne hseen
  obtain ⟨m, hm⟩ := List.exists_mem_of_ne_nil present hne
  obtain ⟨hmem, hself⟩ := (h.tracks.mem_present_iff hr hwf hrest hlevel).1 hm
  refine h.step ⟨m, hmem, fun he => hnot (he ▸ hmem), hself⟩ (fun hin => absurd hin hnot) ?_
  rw [resolveAt, if_neg hnot]
  exact h.tracks

/-- The walk resolves on a literal in the clause if there are others of the present level. -/
theorem resolve {key : Nat} (h : WalkedBack t s clause later (l :: earlier) r)
    (hr : Resolving t s (l :: earlier) [] present r) (hc : Coherent t s)
    (hrest : l :: earlier <:+ t.backwards) (hlevel : 0 < t.level) (hmem : l.negate ∈ present)
    (hne : present.erase l.negate ≠ []) (hreason : t.reasonOf l.atom = some key) (pending : Nat) :
    WalkedBack t s clause (later ++ [l]) earlier
      (Resolvent.resolve t (s.clause key) (some l.atom)
        { r with seen := r.seen.setIfInBounds l.atom false, pending := pending }) := by
  have hiff := fun {m} => h.tracks.mem_present_iff hr hc.trail hrest hlevel (m := m)
  obtain ⟨m, hm⟩ := List.exists_mem_of_ne_nil _ hne
  have hdistinct : present.Nodup := by
    have hnodup := hr.distinct.of_map
    exact hnodup.of_append_left
  obtain ⟨hother, hm⟩ := (List.Nodup.mem_erase_iff hdistinct).1 hm
  refine h.step ⟨m, (hiff.1 hm).1, hother, (hiff.1 hm).2⟩
    (fun _ hnone => Option.some_ne_none key (hreason.symm.trans hnone)) ?_
  rw [resolveAt, if_pos (hiff.1 hmem).1, hreason]
  exact h.tracks.resolve hr hc hrest (hc.forced hrest hreason) pending

/-- Where a single literal of the present level is left, the walk is at the first implication
point. -/
theorem firstPoint (h : WalkedBack t s clause later (l :: earlier) r)
    (hr : Resolving t s (l :: earlier) [] [l.negate] r) (hwf : t.WellFormed)
    (hrest : l :: earlier <:+ t.backwards) (hlevel : 0 < t.level)
    (hself : t.levelOf l.atom = t.level) :
    FirstPoint t s clause l (resolvedAlong t s clause later) where
  passed := ⟨later, earlier, h.backwards_eq, rfl, h.passed⟩
  mem := ((h.tracks.mem_present_iff hr hwf hrest hlevel).1 List.mem_cons_self).1
  level := hself
  only _ hm hne hmself :=
    hne (List.mem_singleton.1 ((h.tracks.mem_present_iff hr hwf hrest hlevel).2 ⟨hm, hmself⟩))

end WalkedBack

/-- The clause learnt is the one resolved up to the first implication point, without its literals of
level zero. -/
theorem analyze?_firstPoint {t : Trail} {s : ClauseStore} {key : Nat} {seen : Array Bool}
    (hc : Coherent t s) (hseen : Unmarked seen t.atoms) (hlevel : 0 < t.level)
    (hkey : Falsified t s key) {activity : Activity} {analysis : Analysis}
    (h : analyze? t s seen activity key = some analysis) :
    ∃ resolved, FirstPoint t s (s.clause key).literals analysis.learnt.asserted.negate resolved ∧
      ∀ m, m ∈ analysis.learnt.literals ↔ m ∈ resolved ∧ 0 < t.levelOf m.atom := by
  obtain ⟨present, hne, hr⟩ := Resolving.start hc hseen hlevel hkey activity
  have hbegun : WalkedBack t s (s.clause key).literals [] t.backwards
      (Resolvent.resolve t (s.clause key) none ⟨seen, activity, #[], 0⟩) :=
    ⟨rfl, Tracks.start hc.trail hseen hkey activity, by simp⟩
  obtain ⟨l, earlier, r, hwalk, hrest, hself, hlast, later, hpassed⟩ :=
    Resolving.walk_induction
      (P := fun rest r => ∃ later, WalkedBack t s (s.clause key).literals later rest r)
      (fun hr hrest hne hseen ⟨later, hpassed⟩ =>
        ⟨_, hpassed.pass hr hc.trail hrest hlevel hne hseen⟩)
      (fun hr hrest hmem hne hreason _ ⟨later, hpassed⟩ =>
        ⟨_, hpassed.resolve hr hc hrest hlevel hmem hne hreason _⟩)
      hr hc (List.suffix_refl _) hlevel hne ⟨[], hbegun⟩
  rw [analyze?, hwalk] at h
  obtain rfl := Option.some.inj h
  refine ⟨resolvedAlong t s (s.clause key).literals later, ?_, fun m => ?_⟩
  · rw [show l.negate.negate = l from Literal.negate_negate l]
    exact hpassed.firstPoint hlast hc.trail hrest hlevel hself
  · rw [← hpassed.tracks.mem_iff hlast hc.trail hrest, List.singleton_append, Lemma.literals,
      List.mem_cons, List.mem_cons, (perm_raiseGreatest _ _).mem_iff]

end IncrementalSat.Cdcl

namespace IncrementalSat.Session

open Cdcl

variable {R : Type} [Random.Source R]

/-- Wherever a search analyzes a conflict, that is, after a propagation that finds a clause false
above level zero, a clause is learnt that holds wherever the stored clauses and the literals of
level zero do.  Its literals are false, of different atoms, none of level zero, and the asserted one
is the only one of the present level.  The negation of the asserted literal is the first implication
point, and the learnt clause is the one resolved up to there without its literals of level zero.
The level to go back to is the highest of the other literals, that of the first of them, and below
the present level.  After the backjump the others are false and the asserted literal is open.  All
marks are taken back. -/
theorem conflict_learns_first_point (calls : List Call) (s : Solver R) (t : Trail)
    (store : ClauseStore) (key : Nat) (h : (after R calls).engine.Visits s)
    (hpropagate : propagate s.trail s.store = (t, store, some key)) (hlevel : 0 < t.level) :
    ∃ analysis, analyze? t store s.seen s.activity key = some analysis ∧
      let learnt := analysis.learnt
      (∀ v, Respects v t store → Satisfies v learnt.literals) ∧
      (∀ l ∈ learnt.literals, t.valueOf l = some false) ∧
      (learnt.literals.map Literal.atom).Nodup ∧
      (∀ l ∈ learnt.literals, 0 < t.levelOf l.atom) ∧
      (t.levelOf learnt.asserted.atom = t.level ∧
        ∀ l ∈ learnt.others, t.levelOf l.atom ≠ t.level) ∧
      (∃ resolved,
        FirstPoint t store (store.clause key).literals learnt.asserted.negate resolved ∧
        ∀ l, l ∈ learnt.literals ↔ l ∈ resolved ∧ 0 < t.levelOf l.atom) ∧
      ((∀ l ∈ learnt.others, t.levelOf l.atom ≤ learnt.level) ∧
        (learnt.others = [] → learnt.level = 0) ∧
        (∀ second rest, learnt.others = second :: rest →
          learnt.level = t.levelOf second.atom) ∧
        learnt.level < t.level) ∧
      ((∀ l ∈ learnt.others, (t.backjump learnt.level).valueOf l = some false) ∧
        (t.backjump learnt.level).valueOf learnt.asserted = none) ∧
      analysis.seen.size = t.atoms ∧ ∀ atom, analysis.seen.getD atom false = false := by
  obtain ⟨-, -, -, hrunning, -, hconflict⟩ := (searching_of_visits h).propagated hpropagate
  obtain ⟨hkey, -⟩ := hconflict key rfl
  have hc : Coherent t store := hrunning.coherent
  have hseen : Unmarked s.seen t.atoms := hrunning.unmarked
  obtain ⟨analysis, hanalysis, hlearns, hunmarked⟩ := analyze?_spec hc hseen hlevel hkey s.activity
  have hpoint := analyze?_firstPoint hc hseen hlevel hkey hanalysis
  have hwf := hc.trail
  have hback := hwf.backjump analysis.learnt.level
  refine ⟨analysis, hanalysis, hlearns.entailed, ?_, hlearns.distinct, ?_, ⟨hlearns.asserted.2, ?_⟩,
    hpoint, ⟨?_, ?_, ?_, hlearns.level_lt⟩, ⟨?_, hlearns.asserted_open hwf⟩,
    hunmarked.size_eq, hunmarked.getD_eq⟩
  · exact fun l hl => hwf.valueOf_eq_false_iff.2 (hlearns.negate_mem hl)
  · obtain ⟨resolved, -, hresolved⟩ := hpoint
    exact fun l hl => ((hresolved l).1 hl).2
  · intro l hl
    exact ((hlearns.others l hl).2.2.trans_lt hlearns.level_lt).ne
  · exact fun l hl => (hlearns.others l hl).2.2
  · intro hnil
    rw [hlearns.level_eq, hnil]
    rfl
  · intro second rest hcons
    rw [hlearns.level_eq, hcons]
    rfl
  · exact fun l hl => hback.valueOf_eq_false_iff.2 (hlearns.others_backjump hwf hl).1

/-- Such a conflict: the second assumption makes a clause false by way of the third atom, and the
clause learnt is the resolvent of both clauses, which asserts its negation under the first. -/
theorem conflict_learns_first_point_of_assumptions :
    let engine := (after Random.Pcg
      [.addClause [-1, -2, 3], .addClause [-1, -2, -3], .assume 1, .assume 2]).engine
    ∃ (s : Solver Random.Pcg) (t : Trail) (store : ClauseStore) (analysis : Analysis),
      engine.Visits s ∧ propagate s.trail s.store = (t, store, some 1) ∧ t.level = 2 ∧
      analyze? t store s.seen s.activity 1 = some analysis ∧
      ∃ resolved, FirstPoint t store (store.clause 1).literals
        analysis.learnt.asserted.negate resolved := by
  intro engine
  have hvisits : engine.Visits engine.beginSolve := Solver.visits_beginSolve (by decide +kernel)
  obtain ⟨turn, hturn, hnext⟩ := exists_turn_of_visits hvisits
  have hfacts : ((engine.beginSolve.turn engine.assumptions.toList).bind fun turn =>
      (turn.solver.turn engine.assumptions.toList).map fun turn' =>
        (turn.verdict, turn'.verdict, (propagate turn'.solver.trail turn'.solver.store).2.2,
          (propagate turn'.solver.trail turn'.solver.store).1.level)) =
      some (none, none, some 1, 2) := by decide +kernel
  rw [hturn, Option.bind_some] at hfacts
  obtain ⟨turn', hturn', hfacts⟩ := Option.map_eq_some_iff.1 hfacts
  simp only [Prod.mk.injEq] at hfacts
  obtain ⟨hverdict, hverdict', hconflict, hlevel⟩ := hfacts
  have hvisits' := (hnext hverdict).turn hturn' hverdict'
  have hpropagate : propagate turn'.solver.trail turn'.solver.store =
      ((propagate turn'.solver.trail turn'.solver.store).1,
        (propagate turn'.solver.trail turn'.solver.store).2.1, some 1) := by rw [← hconflict]
  obtain ⟨analysis, hanalysis, -, -, -, -, -, ⟨resolved, hpoint, -⟩, -⟩ :=
    conflict_learns_first_point _ turn'.solver _ _ 1 hvisits' hpropagate
      (by rw [hlevel]; exact Nat.two_pos)
  exact ⟨_, _, _, analysis, hvisits', hpropagate, hlevel, hanalysis, resolved, hpoint⟩

end IncrementalSat.Session
