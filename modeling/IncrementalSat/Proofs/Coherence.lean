import IncrementalSat.Formula
import IncrementalSat.Proofs.ClauseStore

/-!
# Trails and stores that belong together

A trail and a clause store are coherent if both are well formed and every literal of the trail has
its ground: a literal with a reason is the only literal of that clause which is not false by earlier
ones, and a literal without a reason is of level zero or the first of its level.  Clauses are
settled up to a position if no watched literal falsified below it lacks a true partner of a level
that is not higher.  Assignments, levels opened and backjumps keep both.  Together a trail and a
store stand for the valuations in which the stored clauses and the literals of level zero hold.
-/

set_option autoImplicit false

namespace IncrementalSat.Cdcl

open scoped List

/-! ## Growing trails and stores -/

/-- A trail extends another if it has further literals of the present level and knows the same of
those of the other. -/
structure Trail.Extends (t u : Trail) : Prop where
  literals : t.literals.toList <+: u.literals.toList
  current : ∀ l ∈ t.literals, (u.slot l.atom).current = (t.slot l.atom).current
  limits : u.limits = t.limits
  atoms : u.atoms = t.atoms

namespace Trail.Extends

variable {t u w : Trail}

/-- A trail extends itself. -/
theorem refl (t : Trail) : t.Extends t :=
  ⟨List.prefix_refl _, fun _ _ => rfl, rfl, rfl⟩

/-- An extension of a trail has the literals of the trail. -/
theorem mem (h : t.Extends u) {l : Literal} (hl : l ∈ t.literals) : l ∈ u.literals :=
  Array.mem_toList_iff.1 (h.literals.subset (Array.mem_toList_iff.2 hl))

/-- An extension of an extension of a trail extends the trail. -/
theorem trans (h : t.Extends u) (h' : u.Extends w) : t.Extends w where
  literals := h.literals.trans h'.literals
  current l hl := (h'.current l (h.mem hl)).trans (h.current l hl)
  limits := h'.limits.trans h.limits
  atoms := h'.atoms.trans h.atoms

/-- An extension of a trail has the same open levels. -/
theorem level_eq (h : t.Extends u) : u.level = t.level := by
  simp only [Trail.level, h.limits]

/-- An extension of a trail knows the same levels of its literals. -/
theorem levelOf_eq (h : t.Extends u) {l : Literal} (hl : l ∈ t.literals) :
    u.levelOf l.atom = t.levelOf l.atom :=
  Trail.levelOf_congr (h.current l hl)

/-- An extension of a trail knows the same levels of literals that are false. -/
theorem levelOf_eq_of_negate (h : t.Extends u) {l : Literal} (hl : l.negate ∈ t.literals) :
    u.levelOf l.atom = t.levelOf l.atom :=
  h.levelOf_eq (l := l.negate) hl

/-- The literals below a position of the shorter trail are the same on both. -/
theorem before_eq (h : t.Extends u) {p : Nat} (hp : p ≤ t.literals.size) :
    u.before p = t.before p := by
  obtain ⟨more, hmore⟩ := h.literals
  rw [Trail.before, ← hmore, List.take_append_of_le_length (by simpa using hp)]
  rfl

/-- An assignment of an open literal extends a trail. -/
theorem assign (hwf : t.WellFormed) {l : Literal} (reason : Option Nat)
    (hroom : l.atom < t.atoms) (hopen : t.valueOf l = none) : t.Extends (t.assign l reason) where
  literals := by
    rw [Trail.literals_assign reason hroom, Array.toList_push]
    exact List.prefix_append _ _
  current _ hm := hwf.current_assign reason hopen hm
  limits := Trail.limits_assign ..
  atoms := Trail.atoms_assign ..

end Trail.Extends

/-- A store extends another if it has further clauses and the literals of the others are at most
rearranged. -/
structure ClauseStore.Extends (s r : ClauseStore) : Prop where
  size_le : s.clauses.size ≤ r.clauses.size
  perm : ∀ key < s.clauses.size, (r.clause key).literals ~ (s.clause key).literals
  learnt : ∀ key < s.clauses.size, (r.clause key).learnt = (s.clause key).learnt

namespace ClauseStore.Extends

variable {s r q : ClauseStore}

/-- A store extends itself. -/
theorem refl (s : ClauseStore) : s.Extends s :=
  ⟨le_rfl, fun _ _ => List.Perm.refl _, fun _ _ => rfl⟩

/-- An extension of an extension of a store extends the store. -/
theorem trans (h : s.Extends r) (h' : r.Extends q) : s.Extends q where
  size_le := h.size_le.trans h'.size_le
  perm key hkey := (h'.perm key (lt_of_lt_of_le hkey h.size_le)).trans (h.perm key hkey)
  learnt key hkey := (h'.learnt key (lt_of_lt_of_le hkey h.size_le)).trans (h.learnt key hkey)

/-- A clause of a store has the same literals in an extension. -/
theorem mem_iff (h : s.Extends r) {key : Nat} (hkey : key < s.clauses.size) {l : Literal} :
    l ∈ (r.clause key).literals ↔ l ∈ (s.clause key).literals :=
  (h.perm key hkey).mem_iff

/-- Putting a clause with the same literals in the place of another extends a store. -/
theorem replace {key : Nat} {c : Clause} (hperm : c.literals ~ (s.clause key).literals)
    (hlearnt : c.learnt = (s.clause key).learnt) : s.Extends (s.replace key c) where
  size_le := by rw [size_replace]
  perm k hk := by
    by_cases he : k = key
    · subst he
      rw [clause_replace_self hk]
      exact hperm
    · rw [clause_replace_ne he]
  learnt k hk := by
    by_cases he : k = key
    · subst he
      rw [clause_replace_self hk]
      exact hlearnt
    · rw [clause_replace_ne he]

/-- Storing a clause extends a store. -/
theorem attach (s : ClauseStore) (first second : Literal) (others : List Literal)
    (learnt : Bool) : s.Extends (s.attach first second others learnt) where
  size_le := by
    rw [size_attach]
    exact Nat.le_succ _
  perm key hkey := by rw [clause_attach_of_lt hkey]
  learnt key hkey := by rw [clause_attach_of_lt hkey]

end ClauseStore.Extends

/-! ## Grounds -/

/-- The clause with a key forces a literal: its other literals are false by literals earlier on the
trail, one of them of the level of the literal. -/
structure Forces (t : Trail) (s : ClauseStore) (key : Nat) (l : Literal)
    (earlier : List Literal) : Prop where
  key_lt : key < s.clauses.size
  mem : l ∈ (s.clause key).literals
  others : ∀ m ∈ (s.clause key).literals, m ≠ l → m.negate ∈ earlier
  level : ∃ m ∈ (s.clause key).literals, m ≠ l ∧ t.levelOf m.atom = t.levelOf l.atom

/-- Trail and store are well formed and every literal of the trail has its ground. -/
structure Coherent (t : Trail) (s : ClauseStore) : Prop where
  trail : t.WellFormed
  store : s.WellFormed t.atoms
  /-- A literal without a reason is of level zero or opens its level. -/
  opening : ∀ {l earlier}, l :: earlier <:+ t.backwards → t.reasonOf l.atom = none →
    t.levelOf l.atom = 0 ∨ ∀ m ∈ earlier, t.levelOf m.atom < t.levelOf l.atom
  /-- The reason of a literal forces it. -/
  forced : ∀ {l earlier key}, l :: earlier <:+ t.backwards → t.reasonOf l.atom = some key →
    Forces t s key l earlier

/-- A watched literal falsified below a position has a true partner of a level not higher. -/
def Guarded (t : Trail) (p : Nat) (watched partner : Literal) : Prop :=
  watched.negate ∈ t.before p →
    partner ∈ t.literals ∧ t.levelOf partner.atom ≤ t.levelOf watched.atom

/-- Both watched literals of a clause are guarded by each other. -/
def Clause.SettledAt (c : Clause) (t : Trail) (p : Nat) : Prop :=
  Guarded t p c.first c.second ∧ Guarded t p c.second c.first

/-- Every clause is settled up to a position that no level begins above. -/
structure Settled (t : Trail) (s : ClauseStore) (p : Nat) : Prop where
  limits_le : ∀ n ∈ t.limits, n ≤ p
  clauses : ∀ key < s.clauses.size, (s.clause key).SettledAt t p

/-- A valuation respects a trail and a store if it makes the stored clauses and the literals of
level zero true. -/
structure Respects (v : Valuation) (t : Trail) (s : ClauseStore) : Prop where
  clauses : ∀ key < s.clauses.size, Satisfies v (s.clause key).literals
  fixed : ∀ l ∈ t.literals, t.levelOf l.atom = 0 → l.Holds v

/-! ## Settled clauses -/

/-- What is guarded below a position is guarded below an earlier one. -/
theorem Guarded.mono {t : Trail} {p q : Nat} {watched partner : Literal} (hpq : p ≤ q)
    (h : Guarded t q watched partner) : Guarded t p watched partner :=
  fun hw => h (Trail.before_mono hpq hw)

/-- A guard stays when the trail is extended. -/
theorem Guarded.extend {t u : Trail} {p : Nat} {watched partner : Literal}
    (h : Guarded t p watched partner) (hext : t.Extends u) (hp : p ≤ t.literals.size) :
    Guarded u p watched partner := by
  intro hw
  rw [hext.before_eq hp] at hw
  obtain ⟨hpartner, hle⟩ := h hw
  rw [hext.levelOf_eq hpartner, hext.levelOf_eq_of_negate (Trail.mem_of_mem_before hw)]
  exact ⟨hext.mem hpartner, hle⟩

/-- A clause stays settled up to a position when the trail is extended above it. -/
theorem Clause.SettledAt.extend {c : Clause} {t u : Trail} {p : Nat} (h : c.SettledAt t p)
    (hext : t.Extends u) (hp : p ≤ t.literals.size) : c.SettledAt u p :=
  ⟨h.1.extend hext hp, h.2.extend hext hp⟩

/-- Exchanging the watched literals of a clause does not unsettle it. -/
theorem Clause.settledAt_demote_iff {c : Clause} {l : Literal} {t : Trail} {p : Nat} :
    (c.demote l).SettledAt t p ↔ c.SettledAt t p := by
  unfold Clause.demote SettledAt
  split
  · exact and_comm
  · exact Iff.rfl

/-- A watched literal whose negation is not on the trail is guarded. -/
theorem Guarded.of_not_mem {t : Trail} {p : Nat} {watched partner : Literal}
    (h : watched.negate ∉ t.literals) : Guarded t p watched partner :=
  fun hw => absurd (Trail.mem_of_mem_before hw) h

/-- All clauses stay settled up to a position when the trail is extended above it. -/
theorem Settled.extend {t u : Trail} {s : ClauseStore} {p : Nat} (h : Settled t s p)
    (hext : t.Extends u) (hp : p ≤ t.literals.size) : Settled u s p where
  limits_le n hn := h.limits_le n (hext.limits ▸ hn)
  clauses key hkey := (h.clauses key hkey).extend hext hp

/-! ## Operations on the trail -/

namespace Settled

variable {t : Trail} {s : ClauseStore} {p : Nat}

/-- A backjump settles the clauses up to where propagation goes on. -/
theorem backjump (h : Settled t s p) (hwf : t.WellFormed) {target : Nat} (hlt : target < t.level) :
    Settled (t.backjump target) s (t.backjump target).head where
  limits_le := (hwf.backjump target).limits_le_head
  clauses key hkey := by
    have hkeep : t.keep target ≤ p := h.limits_le _ (Trail.keep_mem_limits hlt)
    have hguard : ∀ {w o}, Guarded t p w o →
        Guarded (t.backjump target) (t.backjump target).head w o := by
      intro w o hg hw
      have hwb := Trail.mem_of_mem_before hw
      obtain ⟨hwt, hwle⟩ := (hwf.mem_backjump_iff hlt).1 hwb
      obtain ⟨ho, hole⟩ := hg (Trail.before_mono hkeep
        ((hwf.mem_before_keep_iff hlt).2 ⟨hwt, hwle⟩))
      rw [Literal.atom_negate] at hwle
      have hob := (hwf.mem_backjump_iff hlt).2 ⟨ho, hole.trans hwle⟩
      have hwlevel : (t.backjump target).levelOf w.atom = t.levelOf w.atom :=
        hwf.levelOf_backjump (l := w.negate) hlt hwb
      rw [hwf.levelOf_backjump hlt hob, hwlevel]
      exact ⟨hob, hole⟩
    exact ⟨hguard (h.clauses key hkey).1, hguard (h.clauses key hkey).2⟩

end Settled

namespace Coherent

variable {t : Trail} {s : ClauseStore}

/-- Nothing on the trail and nothing stored is coherent. -/
theorem empty : Coherent {} {} where
  trail := Trail.WellFormed.empty
  store := ClauseStore.WellFormed.empty
  opening hl := by simp [Trail.backwards] at hl
  forced hl := by simp [Trail.backwards] at hl

/-- Room for a further atom keeps trail and store coherent. -/
theorem ensure (h : Coherent t s) (atom : Nat) : Coherent (t.ensure atom) (s.ensure atom) where
  trail := h.trail.ensure atom
  store := by
    rw [Trail.atoms_ensure]
    exact h.store.ensure atom
  opening {l earlier} hl hr := by
    simp only [Trail.levelOf, Trail.reasonOf, Trail.slot_ensure] at hr ⊢
    exact h.opening hl hr
  forced {l earlier key} hl hr := by
    simp only [Trail.reasonOf, Trail.slot_ensure] at hr
    have hf := h.forced hl hr
    refine ⟨hf.key_lt, hf.mem, hf.others, ?_⟩
    simp only [Trail.levelOf, Trail.slot_ensure]
    exact hf.level

/-- A well-formed store that extends a coherent one is coherent with the same trail. -/
theorem extendStore (h : Coherent t s) {r : ClauseStore} (hext : s.Extends r)
    (hwf : r.WellFormed t.atoms) : Coherent t r where
  trail := h.trail
  store := hwf
  opening := h.opening
  forced {l earlier key} hl hr := by
    have hf := h.forced hl hr
    refine ⟨lt_of_lt_of_le hf.key_lt hext.size_le, (hext.mem_iff hf.key_lt).2 hf.mem, ?_, ?_⟩
    · intro m hm
      exact hf.others m ((hext.mem_iff hf.key_lt).1 hm)
    · obtain ⟨m, hm, hne, hlevel⟩ := hf.level
      exact ⟨m, (hext.mem_iff hf.key_lt).2 hm, hne, hlevel⟩

/-- Going on with propagation keeps trail and store coherent. -/
theorem withHead (h : Coherent t s) {n : Nat} (hlow : t.head ≤ n) (hhigh : n ≤ t.literals.size) :
    Coherent { t with head := n } s where
  trail := h.trail.withHead hlow hhigh
  store := h.store
  opening := h.opening
  forced hl hr := by
    have hf := h.forced hl hr
    exact ⟨hf.key_lt, hf.mem, hf.others, hf.level⟩

/-- Opening a level keeps trail and store coherent if all literals have been propagated. -/
theorem pushLevel (h : Coherent t s) (hhead : t.head = t.literals.size) :
    Coherent t.pushLevel s where
  trail := h.trail.pushLevel hhead
  store := h.store
  opening := h.opening
  forced hl hr := by
    have hf := h.forced hl hr
    exact ⟨hf.key_lt, hf.mem, hf.others, hf.level⟩

/-- Going back to a level keeps trail and store coherent. -/
theorem backjump (h : Coherent t s) (target : Nat) : Coherent (t.backjump target) s := by
  by_cases hlt : target < t.level
  swap
  · rw [Trail.backjump_of_le (by omega)]
    exact h
  have hsuffix := Trail.WellFormed.backwards_backjump_suffix t hlt
  have hlevel := fun {l : Literal} => h.trail.levelOf_backjump hlt (l := l)
  refine { trail := h.trail.backjump target, store := ?_, opening := ?_, forced := ?_ }
  · rw [Trail.atoms_backjump]
    exact h.store
  · intro l earlier hl hr
    rw [h.trail.reasonOf_backjump hlt (Trail.mem_of_suffix hl)] at hr
    rw [hlevel (Trail.mem_of_suffix hl)]
    apply (h.opening (hl.trans hsuffix) hr).imp_right
    intro hlow m hm
    rw [hlevel (Trail.mem_of_mem_earlier hl hm)]
    exact hlow m hm
  · intro l earlier key hl hr
    rw [h.trail.reasonOf_backjump hlt (Trail.mem_of_suffix hl)] at hr
    have hf := h.forced (hl.trans hsuffix) hr
    refine ⟨hf.key_lt, hf.mem, hf.others, ?_⟩
    obtain ⟨m, hm, hne, hmlevel⟩ := hf.level
    have hmb : (t.backjump target).levelOf m.atom = t.levelOf m.atom :=
      hlevel (l := m.negate) (Trail.mem_of_mem_earlier hl (hf.others m hm hne))
    exact ⟨m, hm, hne, by rw [hmb, hlevel (Trail.mem_of_suffix hl), hmlevel]⟩

section Assign

variable {l : Literal}

/-- The grounds of the literals of a trail stay when a literal is assigned. -/
theorem forced_assign (h : Coherent t s) (reason : Option Nat) (hroom : l.atom < t.atoms)
    (hopen : t.valueOf l = none) {m : Literal} {earlier : List Literal} {key : Nat}
    (hm : m :: earlier <:+ t.backwards) (hr : (t.assign l reason).reasonOf m.atom = some key) :
    Forces (t.assign l reason) s key m earlier := by
  have hext := Trail.Extends.assign h.trail reason hroom hopen
  rw [Trail.reasonOf_congr (hext.current m (Trail.mem_of_suffix hm))] at hr
  have hf := h.forced hm hr
  refine ⟨hf.key_lt, hf.mem, hf.others, ?_⟩
  obtain ⟨k, hk, hne, hlevel⟩ := hf.level
  have hkt := hext.levelOf_eq_of_negate (Trail.mem_of_mem_earlier hm (hf.others k hk hne))
  exact ⟨k, hk, hne, by rw [hkt, hext.levelOf_eq (Trail.mem_of_suffix hm), hlevel]⟩

/-- Literals without a reason still open their levels after an assignment. -/
theorem opening_assign (h : Coherent t s) (reason : Option Nat) (hroom : l.atom < t.atoms)
    (hopen : t.valueOf l = none) {m : Literal} {earlier : List Literal}
    (hm : m :: earlier <:+ t.backwards) (hr : (t.assign l reason).reasonOf m.atom = none) :
    (t.assign l reason).levelOf m.atom = 0 ∨ ∀ k ∈ earlier,
      (t.assign l reason).levelOf k.atom < (t.assign l reason).levelOf m.atom := by
  have hext := Trail.Extends.assign h.trail reason hroom hopen
  rw [Trail.reasonOf_congr (hext.current m (Trail.mem_of_suffix hm))] at hr
  rw [hext.levelOf_eq (Trail.mem_of_suffix hm)]
  apply (h.opening hm hr).imp_right
  intro hlow k hk
  rw [hext.levelOf_eq (Trail.mem_of_mem_earlier hm hk)]
  exact hlow k hk

/-- A literal may be assigned without a reason at level zero or at the start of a level. -/
theorem assign_opening (h : Coherent t s) (hroom : l.atom < t.atoms) (hopen : t.valueOf l = none)
    (hfirst : t.level = 0 ∨ ∀ m ∈ t.literals, t.levelOf m.atom < t.level) :
    Coherent (t.assign l none) s where
  trail := h.trail.assign none hroom hopen
  store := by
    rw [Trail.atoms_assign]
    exact h.store
  opening {m earlier} hm hr := by
    have hext := Trail.Extends.assign h.trail none hroom hopen
    rw [Trail.backwards_assign none hroom] at hm
    cases List.suffix_cons_iff.1 hm with
    | inl heq =>
      obtain ⟨rfl, rfl⟩ := List.cons.inj heq
      rw [Trail.levelOf_assign_self none hroom]
      apply hfirst.imp_right
      intro hlow k hk
      rw [Trail.mem_backwards] at hk
      rw [hext.levelOf_eq hk]
      exact hlow k hk
    | inr hold => exact h.opening_assign none hroom hopen hold hr
  forced {m earlier key} hm hr := by
    rw [Trail.backwards_assign none hroom] at hm
    cases List.suffix_cons_iff.1 hm with
    | inl heq =>
      obtain ⟨rfl, rfl⟩ := List.cons.inj heq
      rw [Trail.reasonOf_assign_self none hroom] at hr
      simp at hr
    | inr hold => exact h.forced_assign none hroom hopen hold hr

/-- A literal may be assigned by a clause whose other literals are false, one of them by the present
level. -/
theorem assign_forced (h : Coherent t s) {key : Nat} (hroom : l.atom < t.atoms)
    (hopen : t.valueOf l = none) (hkey : key < s.clauses.size)
    (hmem : l ∈ (s.clause key).literals)
    (hothers : ∀ m ∈ (s.clause key).literals, m ≠ l → m.negate ∈ t.literals)
    (hlevel : ∃ m ∈ (s.clause key).literals, m ≠ l ∧ t.levelOf m.atom = t.level) :
    Coherent (t.assign l (some key)) s where
  trail := h.trail.assign (some key) hroom hopen
  store := by
    rw [Trail.atoms_assign]
    exact h.store
  opening {m earlier} hm hr := by
    rw [Trail.backwards_assign (some key) hroom] at hm
    cases List.suffix_cons_iff.1 hm with
    | inl heq =>
      obtain ⟨rfl, rfl⟩ := List.cons.inj heq
      rw [Trail.reasonOf_assign_self (some key) hroom] at hr
      simp at hr
    | inr hold => exact h.opening_assign (some key) hroom hopen hold hr
  forced {m earlier k} hm hr := by
    have hext := Trail.Extends.assign h.trail (some key) hroom hopen
    rw [Trail.backwards_assign (some key) hroom] at hm
    cases List.suffix_cons_iff.1 hm with
    | inl heq =>
      obtain ⟨rfl, rfl⟩ := List.cons.inj heq
      rw [Trail.reasonOf_assign_self (some key) hroom] at hr
      obtain rfl := Option.some.inj hr
      refine ⟨hkey, hmem, fun k hk hne => Trail.mem_backwards.2 (hothers k hk hne), ?_⟩
      obtain ⟨k, hk, hne, hklevel⟩ := hlevel
      have hkt := hext.levelOf_eq_of_negate (hothers k hk hne)
      exact ⟨k, hk, hne, by rw [hkt, Trail.levelOf_assign_self _ hroom, hklevel]⟩
    | inr hold => exact h.forced_assign (some key) hroom hopen hold hr

end Assign

end Coherent

/-! ## Valuations -/

namespace Respects

variable {v : Valuation} {t u : Trail} {s r : ClauseStore}

/-- A literal false at level zero holds in no valuation that respects the trail. -/
theorem not_holds (h : Respects v t s) {l : Literal} (hl : l.negate ∈ t.literals)
    (hlevel : t.levelOf l.atom = 0) : ¬ l.Holds v :=
  Literal.holds_negate.1 (h.fixed l.negate hl hlevel)

/-- Rearranging literals within clauses does not change which valuations are respectful. -/
theorem rearrange_iff (hext : s.Extends r) (hsize : r.clauses.size = s.clauses.size) :
    Respects v t r ↔ Respects v t s := by
  constructor
  · refine fun h => ⟨fun key hkey => ?_, h.fixed⟩
    rw [← satisfies_congr fun l => hext.mem_iff hkey]
    exact h.clauses key (hsize ▸ hkey)
  · refine fun h => ⟨fun key hkey => ?_, h.fixed⟩
    rw [hsize] at hkey
    rw [satisfies_congr fun l => hext.mem_iff hkey]
    exact h.clauses key hkey

/-- Storing a clause adds the demand that it holds. -/
theorem attach_iff {first second : Literal} {others : List Literal} {learnt : Bool} :
    Respects v t (s.attach first second others learnt) ↔
      Respects v t s ∧ Satisfies v (first :: second :: others) := by
  have hclauses := @ClauseStore.forall_attach_iff s first second others learnt
    fun c => Satisfies v c.literals
  constructor
  · intro h
    obtain ⟨hold, hnew⟩ := hclauses.1 h.clauses
    exact ⟨⟨hold, h.fixed⟩, hnew⟩
  · rintro ⟨h, hnew⟩
    exact ⟨hclauses.2 ⟨h.clauses, hnew⟩, h.fixed⟩

/-- What is known of the literals of level zero is all that counts of a trail. -/
theorem congr_trail (hfixed : ∀ l, (l ∈ u.literals ∧ u.levelOf l.atom = 0) ↔
    (l ∈ t.literals ∧ t.levelOf l.atom = 0)) : Respects v u s ↔ Respects v t s :=
  ⟨fun h => ⟨h.clauses, fun l hl h0 =>
      h.fixed l ((hfixed l).2 ⟨hl, h0⟩).1 ((hfixed l).2 ⟨hl, h0⟩).2⟩,
    fun h => ⟨h.clauses, fun l hl h0 =>
      h.fixed l ((hfixed l).1 ⟨hl, h0⟩).1 ((hfixed l).1 ⟨hl, h0⟩).2⟩⟩

/-- Opening a level changes nothing of which valuations respect trail and store. -/
theorem pushLevel_iff : Respects v t.pushLevel s ↔ Respects v t s :=
  congr_trail fun _ => Iff.rfl

/-- Room for a further atom changes nothing of which valuations respect trail and store. -/
theorem ensure_iff (atom : Nat) : Respects v (t.ensure atom) (s.ensure atom) ↔ Respects v t s := by
  rw [congr_trail (t := t)]
  · exact ⟨fun h => ⟨h.clauses, h.fixed⟩, fun h => ⟨h.clauses, h.fixed⟩⟩
  · intro l
    simp only [Trail.levelOf, Trail.slot_ensure]
    exact Iff.rfl

/-- Going back to a level changes nothing of which valuations respect trail and store. -/
theorem backjump_iff (hwf : t.WellFormed) (target : Nat) :
    Respects v (t.backjump target) s ↔ Respects v t s := by
  by_cases hlt : target < t.level
  swap
  · rw [Trail.backjump_of_le (by omega)]
  apply congr_trail
  intro l
  constructor
  · rintro ⟨hl, h0⟩
    rw [hwf.levelOf_backjump hlt hl] at h0
    exact ⟨((hwf.mem_backjump_iff hlt).1 hl).1, h0⟩
  · rintro ⟨hl, h0⟩
    have hmem := (hwf.mem_backjump_iff hlt).2 ⟨hl, by omega⟩
    exact ⟨hmem, by rw [hwf.levelOf_backjump hlt hmem, h0]⟩

section Assign

variable {l : Literal} {reason : Option Nat}

/-- An assignment at level zero adds the demand that the literal holds. -/
theorem assign_iff (hwf : t.WellFormed) (hroom : l.atom < t.atoms) (hopen : t.valueOf l = none) :
    Respects v (t.assign l reason) s ↔ Respects v t s ∧ (t.level = 0 → l.Holds v) := by
  have hext := Trail.Extends.assign hwf reason hroom hopen
  have hmem := Trail.mem_assign_self reason hroom
  have hself := Trail.levelOf_assign_self reason hroom
  constructor
  · intro h
    refine ⟨⟨h.clauses, fun m hm h0 => ?_⟩, fun h0 => h.fixed l hmem (by rw [hself, h0])⟩
    exact h.fixed m (hext.mem hm) (by rw [hext.levelOf_eq hm, h0])
  · rintro ⟨h, hl⟩
    refine ⟨h.clauses, ?_⟩
    intro m hm h0
    rcases (Trail.mem_assign_iff reason hroom).1 hm with hm | rfl
    · exact h.fixed m hm (by rw [← hext.levelOf_eq hm, h0])
    · exact hl (by rw [← hself, h0])

/-- An assignment above level zero does not change which valuations are respectful. -/
theorem assign_iff_of_level_pos (hwf : t.WellFormed) (hroom : l.atom < t.atoms)
    (hopen : t.valueOf l = none) (hlevel : 0 < t.level) :
    Respects v (t.assign l reason) s ↔ Respects v t s := by
  rw [assign_iff hwf hroom hopen]
  exact and_iff_left fun h0 => absurd h0 (by omega)

/-- At level zero a clause whose other literals are false demands its last literal. -/
theorem assign_forced_iff (hwf : t.WellFormed) (key : Nat) (hroom : l.atom < t.atoms)
    (hopen : t.valueOf l = none) (hkey : key < s.clauses.size)
    (hothers : ∀ m ∈ (s.clause key).literals, m ≠ l → m.negate ∈ t.literals) :
    Respects v (t.assign l reason) s ↔ Respects v t s := by
  rw [assign_iff hwf hroom hopen]
  apply and_iff_left_of_imp
  intro h h0
  obtain ⟨m, hm, hv⟩ := h.clauses key hkey
  by_cases he : m = l
  · exact he ▸ hv
  · have hneg := hothers m hm he
    have hle := hwf.levelOf_le_level_of_negate hneg
    exact absurd hv (h.not_holds hneg (by omega))

end Assign

end Respects

end IncrementalSat.Cdcl
