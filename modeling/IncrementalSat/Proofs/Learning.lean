import IncrementalSat.Proofs.Assumptions
import IncrementalSat.Proofs.Conflict

/-!
# Learnt clauses are new

A clause is known if some stored clause is part of it or it holds by level zero.  A learnt clause is
not known: of two literals of a stored clause one would be false below the present level, and as
clauses are settled there, the other would be true.  After the backjump the asserted literal is
open; the clause is stored or its literal assigned at level zero, so that it is known from then on.
Nothing else changes that matters to a valuation.
-/

set_option autoImplicit false

namespace IncrementalSat.Cdcl

/-- A clause is known if a stored clause is part of it or one of its literals is true at level
zero. -/
def Known (t : Trail) (s : ClauseStore) (c : List Literal) : Prop :=
  (∃ key < s.clauses.size, ∀ l ∈ (s.clause key).literals, l ∈ c) ∨
    ∃ l ∈ c, l ∈ t.literals ∧ t.levelOf l.atom = 0

namespace Known

variable {t u : Trail} {s r : ClauseStore} {c : List Literal}

/-- What is known stays known when the store is extended. -/
theorem extendStore (h : Known t s c) (hext : s.Extends r) : Known t r c := by
  rcases h with ⟨key, hkey, hsub⟩ | hfixed
  · refine .inl ⟨key, lt_of_lt_of_le hkey hext.size_le, fun l hl => hsub l ?_⟩
    exact (hext.mem_iff hkey).1 hl
  · exact .inr hfixed

/-- What is known stays known when the trail is extended. -/
theorem extendTrail (h : Known t s c) (hext : t.Extends u) : Known u s c := by
  rcases h with hstored | ⟨l, hl, hmem, hzero⟩
  · exact .inl hstored
  · exact .inr ⟨l, hl, hext.mem hmem, (hext.levelOf_eq hmem).trans hzero⟩

/-- What is known stays known at a lower level. -/
theorem backjump (h : Known t s c) (hwf : t.WellFormed) (target : Nat) :
    Known (t.backjump target) s c := by
  by_cases hlt : target < t.level
  swap
  · rwa [Trail.backjump_of_le (by omega)]
  rcases h with hstored | ⟨l, hl, hmem, hzero⟩
  · exact .inl hstored
  · have hkept := (hwf.mem_backjump_iff hlt).2 ⟨hmem, by omega⟩
    exact .inr ⟨l, hl, hkept, (hwf.levelOf_backjump hlt hkept).trans hzero⟩

end Known

namespace Learns

variable {t : Trail} {s : ClauseStore} {c : Lemma} {p : Nat}

/-- The literals of a clause that is learnt are false on the trail. -/
theorem negate_mem (h : Learns t s c) {l : Literal} (hl : l ∈ c.literals) :
    l.negate ∈ t.literals := by
  rcases List.mem_cons.1 hl with rfl | hl
  · exact h.asserted.1
  · exact (h.others l hl).1

/-- A stored clause within a learnt one would have a true literal. -/
theorem not_known (h : Learns t s c) (hc : Coherent t s) (hs : Settled t s p) :
    ¬ Known t s c.literals := by
  rintro (⟨key, hkey, hsub⟩ | ⟨l, hl, hmem, -⟩)
  · -- a watched literal other than the asserted one is false below the present level
    have hpartner : ∀ {w o : Literal}, Guarded t p w o → w ∈ c.literals → o ∈ c.literals →
        w = c.asserted := by
      intro w o hguard hw ho
      apply (List.mem_cons.1 hw).resolve_right
      intro hw
      obtain ⟨hmem, -, hle⟩ := h.others w hw
      have hbefore := (hc.trail.mem_before_keep_iff h.level_lt).2 ⟨hmem, hle⟩
      have hkeep := hs.limits_le _ (Trail.keep_mem_limits h.level_lt)
      exact hc.trail.negate_not_mem (hguard (Trail.before_mono hkeep hbefore)).1 (h.negate_mem ho)
    have hfirst := hsub _ (Clause.mem_literals_of_watches (.inl rfl))
    have hsecond := hsub _ (Clause.mem_literals_of_watches (.inr rfl))
    obtain ⟨hg₁, hg₂⟩ := hs.clauses key hkey
    exact (hc.store.apart key hkey).first_ne_second
      ((hpartner hg₁ hfirst hsecond).trans (hpartner hg₂ hsecond hfirst).symm)
  · exact hc.trail.negate_not_mem hmem (h.negate_mem hl)

/-- The asserted literal is open after the backjump. -/
theorem asserted_open (h : Learns t s c) (hwf : t.WellFormed) :
    (t.backjump c.level).valueOf c.asserted = none := by
  rw [(hwf.backjump c.level).valueOf_eq_none_iff, hwf.mem_backjump_iff h.level_lt,
    hwf.mem_backjump_iff h.level_lt]
  obtain ⟨hmem, hlevel⟩ := h.asserted
  refine ⟨fun ⟨hm, _⟩ => hwf.negate_not_mem hm hmem, fun ⟨_, hle⟩ => ?_⟩
  rw [Literal.atom_negate, hlevel] at hle
  exact absurd h.level_lt (by omega)

/-- The asserted literal has room once the search has gone back. -/
theorem asserted_room (h : Learns t s c) (hwf : t.WellFormed) :
    c.asserted.atom < (t.backjump c.level).atoms := by
  rw [Trail.atoms_backjump]
  exact hwf.atom_lt_of_negate h.asserted.1

/-- The other literals are still false after the backjump, at the same levels. -/
theorem others_backjump (h : Learns t s c) (hwf : t.WellFormed) {m : Literal}
    (hm : m ∈ c.others) : m.negate ∈ (t.backjump c.level).literals ∧
      (t.backjump c.level).levelOf m.atom = t.levelOf m.atom := by
  obtain ⟨hmem, -, hle⟩ := h.others m hm
  have hkept := (hwf.mem_backjump_iff h.level_lt).2 ⟨hmem, hle⟩
  exact ⟨hkept, hwf.levelOf_backjump (l := m.negate) h.level_lt hkept⟩

/-- The search goes back to the level that the analysis names. -/
theorem level_backjump (h : Learns t s c) : (t.backjump c.level).level = c.level := by
  rw [Trail.level_backjump]
  exact min_eq_left h.level_lt.le

end Learns

/-- What the assertion of a learnt clause leaves behind. -/
structure Asserted (t : Trail) (s : ClauseStore) (c : Lemma) (u : Trail) (r : ClauseStore) :
    Prop where
  coherent : Coherent u r
  settled : Settled u r u.head
  respects_iff : ∀ v, Respects v u r ↔ Respects v t s
  known : ∀ d, Known t s d → Known u r d
  learnt : Known u r c.literals
  atoms : u.atoms = t.atoms
  upholds : ∀ {assumptions}, Upholds assumptions t → Upholds assumptions u

namespace Learns

variable {t : Trail} {s : ClauseStore} {c : Lemma} {p : Nat}

/-- What the two ways to assert a learnt clause have in common. -/
theorem asserted_assign (h : Learns t s c) (hc : Coherent t s) {reason : Option Nat}
    {r : ClauseStore} (hstore : s.Extends r)
    (hassigned : Coherent ((t.backjump c.level).assign c.asserted reason) r)
    (hsettled : Settled ((t.backjump c.level).assign c.asserted reason) r
      (t.backjump c.level).head)
    (hrespects : ∀ v, Respects v ((t.backjump c.level).assign c.asserted reason) r ↔
      Respects v t s)
    (hlearnt : Known ((t.backjump c.level).assign c.asserted reason) r c.literals)
    (hground : reason ≠ none ∨ (t.backjump c.level).level = 0) :
    Asserted t s c ((t.backjump c.level).assign c.asserted reason) r := by
  have hwf := hc.trail.backjump c.level
  have hroom := h.asserted_room hc.trail
  have hopen := h.asserted_open hc.trail
  have hext := Trail.Extends.assign hwf reason hroom hopen
  refine
    { coherent := hassigned, settled := ?_, respects_iff := hrespects, known := ?_
      learnt := hlearnt, atoms := ?_, upholds := ?_ }
  · rw [Trail.head_assign]
    exact hsettled
  · intro d hd
    exact ((hd.backjump hc.trail c.level).extendTrail hext).extendStore hstore
  · rw [Trail.atoms_assign, Trail.atoms_backjump]
  · intro assumptions hu
    exact (hu.backjump hc.trail c.level).assign_forced hwf hroom hopen hground

/-- The clauses stored before stay settled. -/
theorem settled_assign (h : Learns t s c) (hc : Coherent t s) (hs : Settled t s p)
    (reason : Option Nat) : Settled ((t.backjump c.level).assign c.asserted reason) s
      (t.backjump c.level).head := by
  have hwf := hc.trail.backjump c.level
  have hext := Trail.Extends.assign hwf reason (h.asserted_room hc.trail)
    (h.asserted_open hc.trail)
  exact (hs.backjump hc.trail h.level_lt).extend hext hwf.head_le_size

/-- A learnt literal is assigned at level zero. -/
theorem asserted_unit (h : Learns t s c) (hc : Coherent t s) (hs : Settled t s p)
    (hnil : c.others = []) :
    Asserted t s c ((t.backjump c.level).assign c.asserted none) s := by
  have hroom := h.asserted_room hc.trail
  have hopen := h.asserted_open hc.trail
  have hcoherent := hc.backjump c.level
  have hlevel : (t.backjump c.level).level = 0 := by
    rw [h.level_backjump, h.level_eq, hnil]
    rfl
  apply h.asserted_assign hc (.refl s) (hcoherent.assign_opening hroom hopen (.inl hlevel))
    (h.settled_assign hc hs none)
  · intro v
    rw [Respects.assign_iff hcoherent.trail hroom hopen, Respects.backjump_iff hc.trail]
    apply and_iff_left_of_imp
    intro hv _
    obtain ⟨m, hm, hmv⟩ := h.entailed v hv
    rw [Lemma.literals, hnil, List.mem_singleton] at hm
    exact hm ▸ hmv
  · refine .inr ⟨c.asserted, List.mem_cons_self, Trail.mem_assign_self none hroom, ?_⟩
    rw [Trail.levelOf_assign_self none hroom, hlevel]
  · exact .inr hlevel

/-- The literals of a learnt clause, with the second one named. -/
theorem literals_eq {second : Literal} {others : List Literal}
    (hcons : c.others = second :: others) : c.literals = c.asserted :: second :: others := by
  rw [Lemma.literals, hcons]

/-- A learnt clause that is stored has the literals learnt. -/
theorem literals_attach (s : ClauseStore) {second : Literal} {others : List Literal}
    (hcons : c.others = second :: others) :
    ((s.attach c.asserted second others true).clause s.nextKey).literals = c.literals := by
  have hclause : (s.attach c.asserted second others true).clause s.nextKey =
      ⟨c.asserted, second, others.toArray, true⟩ := ClauseStore.clause_attach_self ..
  rw [hclause, literals_eq hcons]
  rfl

section Stored

variable {second : Literal} {others : List Literal} (h : Learns t s c) (hc : Coherent t s)
  (hcons : c.others = second :: others)
include h hcons

/-- The second literal is of the level gone back to, and this is not level zero. -/
theorem levelOf_second : t.levelOf second.atom = c.level ∧ 0 < c.level := by
  have hlevel : t.levelOf second.atom = c.level := by
    rw [h.level_eq, hcons]
    rfl
  have hpos := (h.others second (by simp [hcons])).2.1
  exact ⟨hlevel, hlevel ▸ hpos⟩

include hc

/-- Trail and store are coherent once the learnt clause is stored and before its literal is
asserted. -/
theorem coherent_attach :
    Coherent (t.backjump c.level) (s.attach c.asserted second others true) := by
  apply (hc.backjump c.level).extendStore (.attach s c.asserted second others true)
  rw [Trail.atoms_backjump]
  apply hc.store.attach
  · rw [← literals_eq hcons]
    exact h.distinct
  · intro l hl
    rw [← literals_eq hcons] at hl
    exact hc.trail.atom_lt_of_negate (h.negate_mem hl)

/-- The clause stored forces its asserted literal. -/
theorem coherent_asserted :
    Coherent ((t.backjump c.level).assign c.asserted (some s.nextKey))
      (s.attach c.asserted second others true) := by
  have hstored := literals_attach s hcons
  obtain ⟨hlevel, -⟩ := h.levelOf_second hcons
  have hsecond := h.others_backjump hc.trail (m := second) (by simp [hcons])
  apply (h.coherent_attach hc hcons).assign_forced (h.asserted_room hc.trail)
    (h.asserted_open hc.trail)
  · rw [ClauseStore.size_attach]
    exact Nat.lt_succ_self _
  · rw [hstored]
    exact List.mem_cons_self
  · intro m hm hne
    rw [hstored] at hm
    exact (h.others_backjump hc.trail ((List.mem_cons.1 hm).resolve_left hne)).1
  · refine ⟨second, ?_, ?_, ?_⟩
    · rw [hstored, literals_eq hcons]
      simp
    · intro he
      have hdistinct := h.distinct
      rw [literals_eq hcons, he] at hdistinct
      simp at hdistinct
    · rw [hsecond.2, hlevel, h.level_backjump]

/-- The clause stored is settled: its first watched literal is true, at the level of the second. -/
theorem settledAt_asserted (p : Nat) :
    Clause.SettledAt ⟨c.asserted, second, others.toArray, true⟩
      ((t.backjump c.level).assign c.asserted (some s.nextKey)) p := by
  have hwf := (h.coherent_asserted hc hcons).trail
  have hroom := h.asserted_room hc.trail
  have hself := Trail.mem_assign_self (some s.nextKey) hroom
  have hext := Trail.Extends.assign (hc.trail.backjump c.level) (some s.nextKey) hroom
    (h.asserted_open hc.trail)
  obtain ⟨hsecond, hkept⟩ := h.others_backjump hc.trail (m := second) (by simp [hcons])
  refine ⟨Guarded.of_not_mem (hwf.negate_not_mem hself), ?_⟩
  intro _
  refine ⟨hself, ?_⟩
  rw [Trail.levelOf_assign_self _ hroom, h.level_backjump, hext.levelOf_eq_of_negate hsecond,
    hkept, (h.levelOf_second hcons).1]

/-- A learnt clause of several literals is stored, and forces its asserted literal. -/
theorem asserted_stored (hs : Settled t s p) :
    Asserted t s c ((t.backjump c.level).assign c.asserted (some s.nextKey))
      (s.attach c.asserted second others true) := by
  have hold := h.settled_assign hc hs (some s.nextKey)
  apply h.asserted_assign hc (.attach s c.asserted second others true)
    (h.coherent_asserted hc hcons)
  · refine ⟨hold.limits_le, ?_⟩
    exact (ClauseStore.forall_attach_iff fun d => d.SettledAt _ _).2
      ⟨hold.clauses, h.settledAt_asserted hc hcons _⟩
  · intro v
    have hpos : 0 < (t.backjump c.level).level := by
      rw [h.level_backjump]
      exact (h.levelOf_second hcons).2
    rw [Respects.assign_iff_of_level_pos (hc.trail.backjump c.level) (h.asserted_room hc.trail)
      (h.asserted_open hc.trail) hpos, Respects.attach_iff, Respects.backjump_iff hc.trail,
      ← literals_eq hcons]
    exact and_iff_left_of_imp (h.entailed v)
  · refine .inl ⟨s.nextKey, ?_, fun l hl => literals_attach s hcons ▸ hl⟩
    rw [ClauseStore.size_attach]
    exact Nat.lt_succ_self _
  · exact .inl (Option.some_ne_none _)

end Stored

/-- The assertion of a learnt clause changes the trail and the store only, and leaves them as they
should be. -/
theorem assertLearnt_spec {R : Type} {s : Solver R} (h : Learns s.trail s.store c)
    (hc : Coherent s.trail s.store) (hs : Settled s.trail s.store p) :
    ∃ u r, s.assertLearnt c = { s with trail := u, store := r } ∧
      Asserted s.trail s.store c u r := by
  unfold Solver.assertLearnt
  cases hcons : c.others with
  | nil => exact ⟨_, s.store, rfl, h.asserted_unit hc hs hcons⟩
  | cons second others => exact ⟨_, _, rfl, h.asserted_stored hc hcons hs⟩

end Learns

end IncrementalSat.Cdcl
