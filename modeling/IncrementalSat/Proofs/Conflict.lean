import IncrementalSat.Cdcl.Conflict
import IncrementalSat.Proofs.Propagation

/-!
# What is learnt from a conflict

The resolvent of a false clause with reasons is a clause whose literals are false on the trail and
which holds wherever trail and store are respected.  Taking in a clause and resolving on the last
literal keep this, and as long as the walk has literals of the present level before it, it comes to
one of them.  So a clause is learnt from every conflict above level zero: its asserted literal is
the only one of the present level.
-/

set_option autoImplicit false

namespace IncrementalSat.Cdcl

open scoped List

/-! ## Marks -/

/-- There is a mark for each atom and none is set. -/
structure Unmarked (seen : Array Bool) (atoms : Nat) : Prop where
  size_eq : seen.size = atoms
  getD_eq : ∀ a, seen.getD a false = false

/-- Setting a mark changes that mark only. -/
theorem getD_setMark {seen : Array Bool} {a : Nat} (h : a < seen.size) (value : Bool) (b : Nat) :
    (seen.setIfInBounds a value).getD b false = if a = b then value else seen.getD b false := by
  by_cases he : a = b
  · subst he
    simp [h]
  · simp [he]

/-- The marks made for a further atom are not set. -/
theorem Unmarked.extend {seen : Array Bool} {atoms : Nat} (h : Unmarked seen atoms) (atom : Nat) :
    Unmarked (Table.extend seen (atom + 1) false) (max atoms (atom + 1)) where
  size_eq := by rw [Table.size_extend, h.size_eq]
  getD_eq a := by rw [Table.getD_extend, h.getD_eq]

/-- Taking back the marks of all marked atoms leaves none. -/
theorem Unmarked.of_foldl {atoms : Nat} (ls : List Literal) (seen : Array Bool)
    (hsize : seen.size = atoms) (hroom : ∀ l ∈ ls, l.atom < atoms)
    (hmarked : ∀ a, seen.getD a false = true → ∃ l ∈ ls, l.atom = a) :
    Unmarked (ls.foldl (fun seen m => seen.setIfInBounds m.atom false) seen) atoms := by
  induction ls generalizing seen with
  | nil =>
    refine ⟨hsize, ?_⟩
    intro a
    by_contra ha
    obtain ⟨l, hl, -⟩ := hmarked a (by simpa using ha)
    simp at hl
  | cons l rest ih =>
    rw [List.foldl_cons]
    have hl : l.atom < seen.size := hsize ▸ hroom l List.mem_cons_self
    refine ih _ (by simpa using hsize) (fun m hm => hroom m (List.mem_cons_of_mem _ hm)) ?_
    intro a ha
    rw [getD_setMark hl] at ha
    split at ha
    · simp at ha
    · rename_i hne
      obtain ⟨m, hm, rfl⟩ := hmarked a ha
      rcases List.mem_cons.1 hm with rfl | hm
      · exact absurd rfl hne
      · exact ⟨m, hm, rfl⟩

/-! ## Resolution -/

/-- A resolution is under way: the resolvent has the literals of the clause at hand that are not
taken in, those of the present level that the walk has still to come to, and those of lower
levels. -/
structure Resolving (t : Trail) (s : ClauseStore) (rest clause present : List Literal)
    (r : Resolvent) : Prop where
  size_eq : r.seen.size = t.atoms
  seen_iff : ∀ a, r.seen.getD a false = true ↔ ∃ m ∈ present ++ r.lower.toList, m.atom = a
  pending_eq : r.pending = present.length
  waiting : ∀ m ∈ present, m.negate ∈ rest ∧ t.levelOf m.atom = t.level
  beneath : ∀ m ∈ r.lower.toList,
    m.negate ∈ t.literals ∧ 0 < t.levelOf m.atom ∧ t.levelOf m.atom < t.level
  distinct : ((present ++ r.lower.toList).map Literal.atom).Nodup
  entailed : ∀ v, Respects v t s → Satisfies v (clause ++ (present ++ r.lower.toList))

namespace Resolving

variable {t : Trail} {s : ClauseStore} {rest clause present : List Literal} {r : Resolvent}
  {l : Literal}

/-- Every literal taken in is false on the trail. -/
theorem negate_mem (h : Resolving t s rest clause present r) (hrest : rest <:+ t.backwards)
    {m : Literal} (hm : m ∈ present ++ r.lower.toList) : m.negate ∈ t.literals := by
  cases List.mem_append.1 hm with
  | inl hm => exact Trail.mem_backwards.1 (hrest.subset (h.waiting m hm).1)
  | inr hm => exact (h.beneath m hm).1

/-- A false literal of a marked atom has been taken in. -/
theorem mem_of_seen (h : Resolving t s rest clause present r) (hwf : t.WellFormed)
    (hrest : rest <:+ t.backwards) (hl : l.negate ∈ t.literals)
    (hseen : r.seen.getD l.atom false = true) : l ∈ present ++ r.lower.toList := by
  obtain ⟨m, hm, ha⟩ := (h.seen_iff l.atom).1 hseen
  have hneg := hwf.eq_of_atom_eq (h.negate_mem hrest hm) hl (by simpa using ha)
  rwa [← Literal.negate_inj.1 hneg]

/-- An atom that is not marked is that of no literal met so far. -/
theorem atom_not_mem_of_unseen (h : Resolving t s rest clause present r)
    (hseen : r.seen.getD l.atom false = false) :
    l.atom ∉ (present ++ r.lower.toList).map Literal.atom := by
  intro hmem
  have hmarked := (h.seen_iff l.atom).2 (List.mem_map.1 hmem)
  rw [hseen] at hmarked
  exact Bool.noConfusion hmarked

/-- A literal that adds nothing to the resolvent may be left out. -/
theorem skip (h : Resolving t s rest (l :: clause) present r)
    (hl : ∀ v, Respects v t s → l.Holds v → Satisfies v (present ++ r.lower.toList)) :
    Resolving t s rest clause present r := by
  refine { h with entailed := fun v hv => ?_ }
  obtain ⟨m, hm, hmv⟩ := h.entailed v hv
  rcases List.mem_cons.1 hm with rfl | hm
  · obtain ⟨k, hk, hkv⟩ := hl v hv hmv
    exact ⟨k, List.mem_append_right _ hk, hkv⟩
  · exact ⟨m, hm, hmv⟩

/-- A literal of the present level waits for the walk. -/
theorem takePresent (h : Resolving t s rest (l :: clause) present r) (hroom : l.atom < t.atoms)
    (hseen : r.seen.getD l.atom false = false) (hplace : l.negate ∈ rest)
    (hlevel : t.levelOf l.atom = t.level) (activity : Activity) :
    Resolving t s rest clause (l :: present)
      { r with
        seen := r.seen.setIfInBounds l.atom true
        activity := activity
        pending := r.pending + 1 } where
  size_eq := by simpa using h.size_eq
  seen_iff a := by
    have := h.seen_iff a
    simp only [getD_setMark (h.size_eq ▸ hroom), List.cons_append, List.exists_mem_cons_iff]
    split <;> simp_all
  pending_eq := by simp [h.pending_eq]
  waiting m hm := by
    rcases List.mem_cons.1 hm with rfl | hm
    · exact ⟨hplace, hlevel⟩
    · exact h.waiting m hm
  beneath := h.beneath
  distinct := by
    rw [List.cons_append, List.map_cons, List.nodup_cons]
    exact ⟨h.atom_not_mem_of_unseen hseen, h.distinct⟩
  entailed v hv := by
    have hperm : l :: clause ++ (present ++ r.lower.toList) ~
        clause ++ (l :: present ++ r.lower.toList) := List.perm_middle.symm
    exact (satisfies_congr fun _ => hperm.mem_iff).1 (h.entailed v hv)

/-- A literal of a lower level, but not of level zero, stays in the resolvent. -/
theorem takeLower (h : Resolving t s rest (l :: clause) present r) (hroom : l.atom < t.atoms)
    (hseen : r.seen.getD l.atom false = false) (hl : l.negate ∈ t.literals)
    (hpos : 0 < t.levelOf l.atom) (hlevel : t.levelOf l.atom < t.level) (activity : Activity) :
    Resolving t s rest clause present
      { r with
        seen := r.seen.setIfInBounds l.atom true
        activity := activity
        lower := r.lower.push l } where
  size_eq := by simpa using h.size_eq
  seen_iff a := by
    have := h.seen_iff a
    simp only [getD_setMark (h.size_eq ▸ hroom), Array.toList_push, ← List.append_assoc,
      List.mem_append, List.mem_singleton] at this ⊢
    split
    · simp_all
    · rename_i hne
      rw [this]
      constructor
      · rintro ⟨m, hm, rfl⟩
        exact ⟨m, .inl hm, rfl⟩
      · rintro ⟨m, hm | rfl, rfl⟩
        · exact ⟨m, hm, rfl⟩
        · exact absurd rfl hne
  pending_eq := h.pending_eq
  waiting := h.waiting
  beneath m hm := by
    rw [Array.toList_push, List.mem_append, List.mem_singleton] at hm
    rcases hm with hm | rfl
    · exact h.beneath m hm
    · exact ⟨hl, hpos, hlevel⟩
  distinct := by
    rw [Array.toList_push, ← List.append_assoc, List.map_append, List.map_singleton,
      List.nodup_append_comm, List.singleton_append, List.nodup_cons]
    exact ⟨h.atom_not_mem_of_unseen hseen, h.distinct⟩
  entailed v hv := by
    have hperm : l :: clause ++ (present ++ r.lower.toList) ~
        clause ++ (present ++ (r.lower.push l).toList) := by
      rw [Array.toList_push, ← List.append_assoc, ← List.append_assoc, ← List.append_assoc]
      exact (List.perm_append_singleton l _).symm
    exact (satisfies_congr fun _ => hperm.mem_iff).1 (h.entailed v hv)

/-- Taking in a false literal keeps the resolvent; one of the present level is then waited for. -/
theorem absorb (h : Resolving t s rest (l :: clause) present r) (hwf : t.WellFormed)
    (hrest : rest <:+ t.backwards) (hl : l.negate ∈ t.literals)
    (hplace : t.levelOf l.atom = t.level → l.negate ∈ rest) (hlevel : 0 < t.level) :
    ∃ present', present ⊆ present' ∧ (t.levelOf l.atom = t.level → l ∈ present') ∧
      Resolving t s rest clause present' (r.absorb t l) := by
  have hroom := hwf.atom_lt_of_negate hl
  have hle := hwf.levelOf_le_level_of_negate hl
  unfold Resolvent.absorb
  by_cases hzero : t.levelOf l.atom = 0
  · rw [if_pos (by simp [hzero])]
    refine ⟨present, List.Subset.refl _, fun he => by omega, h.skip fun v hv hlv => ?_⟩
    exact absurd hlv (hv.not_holds hl hzero)
  cases hseen : r.seen.getD l.atom false with
  | true =>
    rw [if_pos (by simp)]
    have hmem := h.mem_of_seen hwf hrest hl hseen
    refine ⟨present, List.Subset.refl _, fun he => ?_, h.skip fun v _ hlv => ⟨l, hmem, hlv⟩⟩
    cases List.mem_append.1 hmem with
    | inl hmem => exact hmem
    | inr hmem => exact absurd (h.beneath l hmem).2.2 (by omega)
  | false =>
    rw [if_neg (by simp [hzero])]
    by_cases hhigh : t.level ≤ t.levelOf l.atom
    · have hself : t.levelOf l.atom = t.level := le_antisymm hle hhigh
      simp only [if_pos hhigh]
      exact ⟨l :: present, List.subset_cons_self _ _, fun _ => List.mem_cons_self,
        h.takePresent hroom hseen (hplace hself) hself _⟩
    · simp only [if_neg hhigh]
      exact ⟨present, List.Subset.refl _, fun he => absurd he.ge hhigh,
        h.takeLower hroom hseen hl (by omega) (by omega) _⟩

/-- Taking in a false clause leaves nothing of it out. -/
theorem absorb_all (h : Resolving t s rest clause present r) (hwf : t.WellFormed)
    (hrest : rest <:+ t.backwards) (hlevel : 0 < t.level)
    (hclause : ∀ m ∈ clause,
      m.negate ∈ t.literals ∧ (t.levelOf m.atom = t.level → m.negate ∈ rest)) :
    ∃ present', present ⊆ present' ∧
      (∀ m ∈ clause, t.levelOf m.atom = t.level → m ∈ present') ∧
      Resolving t s rest [] present' (clause.foldl (fun r m => r.absorb t m) r) := by
  induction clause generalizing present r with
  | nil => exact ⟨present, List.Subset.refl _, by simp, h⟩
  | cons l clause ih =>
    obtain ⟨hl, hplace⟩ := hclause l List.mem_cons_self
    obtain ⟨present₁, hsub₁, hl₁, h₁⟩ := h.absorb hwf hrest hl hplace hlevel
    obtain ⟨present₂, hsub₂, hm₂, h₂⟩ := ih h₁ fun m hm => hclause m (List.mem_cons_of_mem _ hm)
    refine ⟨present₂, fun m hm => hsub₂ (hsub₁ hm), fun m hm hml => ?_, h₂⟩
    rcases List.mem_cons.1 hm with rfl | hm
    · exact hsub₂ (hl₁ hml)
    · exact hm₂ m hm hml

/-- The literals of a clause that resolution takes in, all but that of the atom resolved on. -/
theorem resolve_eq (t : Trail) (c : Clause) (pivot : Option Nat) (r : Resolvent) :
    r.resolve t c pivot =
      (c.literals.filter fun m => decide (pivot ≠ some m.atom)).foldl
        (fun r m => r.absorb t m) r := by
  rw [List.foldl_filter]
  simp only [Resolvent.resolve, ne_eq, decide_not, Bool.not_eq_true', decide_eq_false_iff_not]
  congr
  funext r m
  by_cases hp : pivot = some m.atom <;> simp [hp]

/-- The walk takes the literal at its place out of the resolvent, to resolve on it. -/
theorem unmark {earlier : List Literal} (h : Resolving t s (l :: earlier) [] present r)
    (hwf : t.WellFormed) (hrest : l :: earlier <:+ t.backwards) (hmem : l.negate ∈ present)
    (pending : Nat) (hpending : pending + 1 = r.pending) :
    Resolving t s earlier [l.negate] (present.erase l.negate)
      { r with seen := r.seen.setIfInBounds l.atom false, pending := pending } := by
  have hperm : present ++ r.lower.toList ~
      l.negate :: (present.erase l.negate ++ r.lower.toList) :=
    (List.perm_cons_erase hmem).append_right _
  have hdistinct := (hperm.map Literal.atom).nodup_iff.1 h.distinct
  rw [List.map_cons, List.nodup_cons] at hdistinct
  have hroom : l.atom < r.seen.size := h.size_eq ▸ hwf.atom_lt (Trail.mem_of_suffix hrest)
  refine ⟨by simpa using h.size_eq, ?_, ?_, ?_, h.beneath, hdistinct.2,
    ?_⟩
  · intro a
    rw [getD_setMark hroom]
    split
    · rename_i he
      subst he
      simp only [Bool.false_eq_true, false_iff]
      exact fun hex => hdistinct.1 (List.mem_map.2 hex)
    · rename_i hne
      rw [h.seen_iff]
      constructor
      · rintro ⟨m, hm, rfl⟩
        rcases List.mem_cons.1 (hperm.mem_iff.1 hm) with rfl | hm
        · exact absurd rfl hne
        · exact ⟨m, hm, rfl⟩
      · rintro ⟨m, hm, rfl⟩
        exact ⟨m, hperm.mem_iff.2 (List.mem_cons_of_mem _ hm), rfl⟩
  · show pending = (present.erase l.negate).length
    rw [List.length_erase_of_mem hmem, ← h.pending_eq]
    omega
  · intro m hm
    obtain ⟨hplace, hlevel⟩ := h.waiting m (List.mem_of_mem_erase hm)
    refine ⟨(List.mem_cons.1 hplace).resolve_left fun he => hdistinct.1 ?_, hlevel⟩
    exact List.mem_map.2 ⟨m, List.mem_append_left _ hm, by rw [← he]; rfl⟩
  · intro v hv
    exact (satisfies_congr fun _ => hperm.mem_iff).1 (h.entailed v hv)

/-- A literal that is not in the resolvent is passed by. -/
theorem pass {earlier : List Literal} (h : Resolving t s (l :: earlier) [] present r)
    (hseen : r.seen.getD l.atom false = false) : Resolving t s earlier [] present r := by
  refine { h with waiting := fun m hm => ?_ }
  obtain ⟨hplace, hlevel⟩ := h.waiting m hm
  refine ⟨(List.mem_cons.1 hplace).resolve_left fun he => ?_, hlevel⟩
  apply h.atom_not_mem_of_unseen hseen
  exact List.mem_map.2 ⟨m, List.mem_append_left _ hm, by rw [← he, Literal.atom_negate]⟩

/-- The first literal of the walk that is in the resolvent is of the present level. -/
theorem mem_present {earlier : List Literal} (h : Resolving t s (l :: earlier) [] present r)
    (hwf : t.WellFormed) (hrest : l :: earlier <:+ t.backwards) (hne : present ≠ [])
    (hseen : r.seen.getD l.atom false = true) : l.negate ∈ present := by
  have hl : l.negate.negate ∈ t.literals := by
    rw [Literal.negate_negate]
    exact Trail.mem_of_suffix hrest
  cases List.mem_append.1 (h.mem_of_seen hwf hrest hl hseen) with
  | inl hmem => exact hmem
  | inr hmem =>
    -- a literal of a lower level is preceded on the walk by those waited for
    obtain ⟨m, hm⟩ := List.exists_mem_of_ne_nil present hne
    obtain ⟨hplace, hlevel⟩ := h.waiting m hm
    obtain ⟨-, -, hlow⟩ := h.beneath _ hmem
    rw [Literal.atom_negate] at hlow
    have hle : t.levelOf m.negate.atom ≤ t.levelOf l.atom := by
      rcases List.mem_cons.1 hplace with he | hplace
      · rw [he]
      · exact hwf.levelOf_le_of_mem_earlier hrest hplace
    rw [Literal.atom_negate] at hle
    omega

/-- A literal of the present level that others are waited for behind does not open the level. -/
theorem reasonOf_ne_none {earlier : List Literal} (h : Resolving t s earlier clause present r)
    (hc : Coherent t s) (hrest : l :: earlier <:+ t.backwards)
    (hself : t.levelOf l.atom = t.level) (hlevel : 0 < t.level) (hne : present ≠ []) :
    t.reasonOf l.atom ≠ none := by
  intro hreason
  obtain ⟨m, hm⟩ := List.exists_mem_of_ne_nil present hne
  obtain ⟨hplace, hmlevel⟩ := h.waiting m hm
  cases hc.opening hrest hreason with
  | inl hzero => omega
  | inr hlow =>
    have hmlow := hlow _ hplace
    rw [Literal.atom_negate] at hmlow
    omega

/-- Resolving with the reason of the literal at the place of the walk takes in the other literals
of the reason. -/
theorem resolve {earlier : List Literal} {key : Nat}
    (h : Resolving t s earlier [l.negate] present r) (hc : Coherent t s)
    (hrest : l :: earlier <:+ t.backwards) (hforces : Forces t s key l earlier)
    (hlevel : 0 < t.level) :
    ∃ present', present ⊆ present' ∧
      Resolving t s earlier [] present' (r.resolve t (s.clause key) (some l.atom)) := by
  have hsub : earlier <:+ t.backwards := (List.suffix_cons l earlier).trans hrest
  have hother : ∀ m ∈ (s.clause key).literals.filter fun m => decide (some l.atom ≠ some m.atom),
      m ∈ (s.clause key).literals ∧ m ≠ l := by
    intro m hm
    obtain ⟨hm, hne⟩ := List.mem_filter.1 hm
    exact ⟨hm, fun he => by simp [he] at hne⟩
  -- where the negation of the literal holds, another literal of the reason does
  have hstart : Resolving t s earlier
      ((s.clause key).literals.filter fun m => decide (some l.atom ≠ some m.atom)) present r := by
    refine { h with entailed := fun v hv => ?_ }
    obtain ⟨m, hm, hmv⟩ := h.entailed v hv
    rcases List.mem_cons.1 hm with rfl | hm
    · obtain ⟨k, hk, hkv⟩ := hv.clauses key hforces.key_lt
      have hne : k.atom ≠ l.atom := by
        intro ha
        have hkl := (hc.store.apart key hforces.key_lt).eq_of_atom_eq hk hforces.mem ha
        exact Literal.holds_negate.1 hmv (hkl ▸ hkv)
      refine ⟨k, List.mem_append_left _ (List.mem_filter.2 ⟨hk, ?_⟩), hkv⟩
      simpa using fun he => hne he.symm
    · exact ⟨m, List.mem_append_right _ hm, hmv⟩
  rw [resolve_eq]
  obtain ⟨present', hpresent, -, h'⟩ := hstart.absorb_all hc.trail hsub hlevel fun m hm => by
    obtain ⟨hm, hne⟩ := hother m hm
    have hplace := hforces.others m hm hne
    exact ⟨Trail.mem_backwards.1 (hsub.subset hplace), fun _ => hplace⟩
  exact ⟨present', hpresent, h'⟩

/-- What holds at the start of the walk, and is kept where the walk passes a literal by or resolves
on one, holds where the walk ends; there one literal of the present level is left. -/
theorem walk_induction {P : List Literal → Resolvent → Prop}
    (hpass : ∀ {l earlier present r}, Resolving t s (l :: earlier) [] present r →
      l :: earlier <:+ t.backwards → present ≠ [] → r.seen.getD l.atom false = false →
      P (l :: earlier) r → P earlier r)
    (hresolve : ∀ {l earlier present r key pending}, Resolving t s (l :: earlier) [] present r →
      l :: earlier <:+ t.backwards → l.negate ∈ present → present.erase l.negate ≠ [] →
      t.reasonOf l.atom = some key → pending + 1 = r.pending → P (l :: earlier) r →
      P earlier (Resolvent.resolve t (s.clause key) (some l.atom)
        { r with seen := r.seen.setIfInBounds l.atom false, pending := pending }))
    (h : Resolving t s rest [] present r) (hc : Coherent t s) (hrest : rest <:+ t.backwards)
    (hlevel : 0 < t.level) (hne : present ≠ []) (hstart : P rest r) :
    ∃ m earlier r', Resolvent.walk t s rest r =
        some (m, { r' with seen := r'.seen.setIfInBounds m.atom false, pending := 0 }) ∧
      m :: earlier <:+ t.backwards ∧ t.levelOf m.atom = t.level ∧
      Resolving t s (m :: earlier) [] [m.negate] r' ∧ P (m :: earlier) r' := by
  induction rest generalizing present r with
  | nil =>
    obtain ⟨m, hm⟩ := List.exists_mem_of_ne_nil present hne
    exact absurd (h.waiting m hm).1 (by simp)
  | cons l earlier ih =>
    have hsub : earlier <:+ t.backwards := (List.suffix_cons l earlier).trans hrest
    unfold Resolvent.walk
    cases hseen : r.seen.getD l.atom false with
    | false =>
      rw [if_neg (by simp)]
      exact ih (h.pass hseen) hsub hne (hpass h hrest hne hseen hstart)
    | true =>
      rw [if_pos rfl]
      have hmem := h.mem_present hc.trail hrest hne hseen
      have hself : t.levelOf l.atom = t.level := (h.waiting _ hmem).2
      have hlength := List.length_erase_of_mem hmem
      have hpending := h.pending_eq
      have hpos := List.length_pos_of_mem hmem
      split
      · omega
      · rename_i hone
        obtain ⟨m, rfl⟩ := List.length_eq_one_iff.1 (hpending.symm.trans hone)
        obtain rfl := List.mem_singleton.1 hmem
        exact ⟨l, earlier, r, rfl, hrest, hself, h, hstart⟩
      · rename_i pending htwo
        have h' := h.unmark hc.trail hrest hmem (pending + 1) (by omega)
        have hne' : present.erase l.negate ≠ [] := by
          intro he
          rw [he, List.length_nil] at hlength
          omega
        split
        · rename_i hreason
          exact absurd hreason (h'.reasonOf_ne_none hc hrest hself hlevel hne')
        · rename_i key hreason
          obtain ⟨m, hm⟩ := List.exists_mem_of_ne_nil _ hne'
          obtain ⟨present', hpresent, h''⟩ :=
            h'.resolve hc hrest (hc.forced hrest hreason) hlevel
          exact ih h'' hsub (List.ne_nil_of_mem (hpresent hm))
            (hresolve h hrest hmem hne' hreason (by omega) hstart)

/-- The walk comes to a literal of the present level, which then is the only one of its level. -/
theorem walk (h : Resolving t s rest [] present r) (hc : Coherent t s)
    (hrest : rest <:+ t.backwards) (hlevel : 0 < t.level) (hne : present ≠ []) :
    ∃ m earlier r', Resolvent.walk t s rest r = some (m, r') ∧ m :: earlier <:+ t.backwards ∧
      t.levelOf m.atom = t.level ∧ Resolving t s earlier [m.negate] [] r' := by
  obtain ⟨m, earlier, r', hwalk, hm, hself, h', -⟩ :=
    walk_induction (P := fun _ _ => True) (fun _ _ _ _ => id) (fun _ _ _ _ _ _ => id) h hc hrest
      hlevel hne trivial
  have hlast := h'.unmark hc.trail hm List.mem_cons_self 0 (by rw [h'.pending_eq]; rfl)
  rw [List.erase_cons_head] at hlast
  exact ⟨m, earlier, _, hwalk, hm, hself, hlast⟩

/-- The literals of a clause found false are taken in first, one of the present level among them. -/
theorem start {key : Nat} {seen : Array Bool} (hc : Coherent t s) (hseen : Unmarked seen t.atoms)
    (hlevel : 0 < t.level) (hkey : Falsified t s key) (activity : Activity) :
    ∃ present, present ≠ [] ∧ Resolving t s t.backwards [] present
      (Resolvent.resolve t (s.clause key) none ⟨seen, activity, #[], 0⟩) := by
  have hstart : Resolving t s t.backwards (s.clause key).literals []
      ⟨seen, activity, #[], 0⟩ :=
    { size_eq := hseen.size_eq
      seen_iff := fun a => by simp [hseen.getD_eq a]
      pending_eq := rfl
      waiting := by simp
      beneath := by simp
      distinct := by simp
      entailed := fun v hv => by simpa using hv.clauses key hkey.key_lt }
  have hall : (s.clause key).literals.filter (fun m => decide (none ≠ some m.atom)) =
      (s.clause key).literals := List.filter_eq_self.2 (by simp)
  obtain ⟨present, -, hmem, h⟩ := hstart.absorb_all hc.trail (List.suffix_refl _) hlevel
    fun m hm => ⟨hkey.negate_mem m hm, fun _ => Trail.mem_backwards.2 (hkey.negate_mem m hm)⟩
  obtain ⟨l, hl, hself⟩ := hkey.level
  rw [resolve_eq, hall]
  exact ⟨present, List.ne_nil_of_mem (hmem l hl hself), h⟩

end Resolving

/-! ## The learnt clause -/

/-- An exchange puts the replacement in the place of a member that passes the test. -/
theorem exchangeFirst_spec {test : Literal → Bool} (replacement : Literal) {ls : List Literal}
    (h : ∃ m ∈ ls, test m = true) :
    test (exchangeFirst test replacement ls).1 = true ∧
      (exchangeFirst test replacement ls).1 :: (exchangeFirst test replacement ls).2 ~
        replacement :: ls := by
  induction ls with
  | nil => simp at h
  | cons l rest ih =>
    unfold exchangeFirst
    by_cases hl : test l = true
    · rw [if_pos hl]
      exact ⟨hl, List.Perm.swap _ _ _⟩
    · rw [if_neg hl]
      obtain ⟨m, hm, hmt⟩ := h
      have hrest : m ∈ _ := (List.mem_cons.1 hm).resolve_left fun he => hl (he ▸ hmt)
      obtain ⟨htest, hperm⟩ := ih ⟨m, hrest, hmt⟩
      refine ⟨htest, ?_⟩
      calc _ ~ l :: (exchangeFirst test replacement rest).1 ::
            (exchangeFirst test replacement rest).2 := List.Perm.swap _ _ _
        _ ~ l :: replacement :: rest := hperm.cons l
        _ ~ replacement :: l :: rest := List.Perm.swap _ _ _

/-- The greatest rank of a list is at least each and is one of them. -/
theorem foldl_max_spec (rank : Literal → Nat) (ls : List Literal) (n : Nat) :
    let greatest := ls.foldl (fun top m => max top (rank m)) n
    n ≤ greatest ∧ (∀ m ∈ ls, rank m ≤ greatest) ∧
      (greatest = n ∨ ∃ m ∈ ls, rank m = greatest) := by
  induction ls generalizing n with
  | nil => simp
  | cons l rest ih =>
    obtain ⟨hn, hall, hex⟩ := ih (max n (rank l))
    simp only [List.foldl_cons]
    refine ⟨(le_max_left _ _).trans hn, ?_, ?_⟩
    · intro m hm
      rcases List.mem_cons.1 hm with rfl | hm
      · exact (le_max_right _ _).trans hn
      · exact hall m hm
    · rcases hex with he | ⟨m, hm, he⟩
      · cases max_choice n (rank l) with
        | inl hmax => exact .inl (he.trans hmax)
        | inr hmax => exact .inr ⟨l, List.mem_cons_self, (he.trans hmax).symm⟩
      · exact .inr ⟨m, List.mem_cons_of_mem _ hm, he⟩

/-- Raising a member of the greatest rank only rearranges a list. -/
theorem perm_raiseGreatest (rank : Literal → Nat) (ls : List Literal) :
    raiseGreatest rank ls ~ ls := by
  cases ls with
  | nil => exact List.Perm.refl _
  | cons l rest =>
    obtain ⟨-, -, hex⟩ := foldl_max_spec rank rest (rank l)
    unfold raiseGreatest
    by_cases hl : rank l = rest.foldl (fun top m => max top (rank m)) (rank l)
    · simp only [if_pos hl]
      exact List.Perm.refl _
    · simp only [if_neg hl]
      obtain ⟨m, hm, he⟩ := hex.resolve_left fun he => hl he.symm
      exact (exchangeFirst_spec l ⟨m, hm, by simpa using he⟩).2

/-- The head of a list with a member of the greatest rank raised has the greatest rank. -/
theorem rank_le_of_raiseGreatest (rank : Literal → Nat) {ls rest : List Literal} {first : Literal}
    (h : raiseGreatest rank ls = first :: rest) : ∀ m ∈ ls, rank m ≤ rank first := by
  cases ls with
  | nil => simp
  | cons l tail =>
    obtain ⟨hself, hall, hex⟩ := foldl_max_spec rank tail (rank l)
    have hgreatest : rank first = tail.foldl (fun top m => max top (rank m)) (rank l) := by
      unfold raiseGreatest at h
      by_cases hl : rank l = tail.foldl (fun top m => max top (rank m)) (rank l)
      · simp only [if_pos hl] at h
        rw [← (List.cons.inj h).1, ← hl]
      · simp only [if_neg hl] at h
        obtain ⟨m, hm, he⟩ := hex.resolve_left fun he => hl he.symm
        have hspec := @exchangeFirst_spec
          (fun k => rank k == tail.foldl (fun top m => max top (rank m)) (rank l)) l tail
          ⟨m, hm, by simpa using he⟩
        rw [← (List.cons.inj h).1]
        exact eq_of_beq hspec.1
    intro m hm
    rw [hgreatest]
    rcases List.mem_cons.1 hm with rfl | hm
    · exact hself
    · exact hall m hm

/-- What a learnt clause is on the trail it is learnt from: its literals are false, the asserted one
at the present level, the others between level zero and the level to go back to; and it holds
wherever trail and store are respected. -/
structure Learns (t : Trail) (s : ClauseStore) (c : Lemma) : Prop where
  asserted : c.asserted.negate ∈ t.literals ∧ t.levelOf c.asserted.atom = t.level
  others : ∀ m ∈ c.others,
    m.negate ∈ t.literals ∧ 0 < t.levelOf m.atom ∧ t.levelOf m.atom ≤ c.level
  level_lt : c.level < t.level
  level_eq : c.level = (c.others.head?.map fun m => t.levelOf m.atom).getD 0
  distinct : (c.literals.map Literal.atom).Nodup
  entailed : ∀ v, Respects v t s → Satisfies v c.literals

/-- A resolvent with one literal of the present level gives a learnt clause. -/
theorem Resolving.learns {t : Trail} {s : ClauseStore} {earlier : List Literal} {m : Literal}
    {r : Resolvent} (h : Resolving t s earlier [m.negate] [] r) (hm : m ∈ t.literals)
    (hself : t.levelOf m.atom = t.level) (hlevel : 0 < t.level) (others : List Literal)
    (hothers : others = raiseGreatest (fun m => t.levelOf m.atom) r.lower.toList) :
    Learns t s ⟨m.negate, others, (others.head?.map fun m => t.levelOf m.atom).getD 0⟩ := by
  have hperm : others ~ r.lower.toList := hothers ▸ perm_raiseGreatest _ _
  have hbeneath := fun k (hk : k ∈ others) => h.beneath k (hperm.mem_iff.1 hk)
  refine ⟨⟨by simpa using hm, hself⟩, ?_, ?_, rfl, ?_, ?_⟩
  · intro k hk
    refine ⟨(hbeneath k hk).1, (hbeneath k hk).2.1, ?_⟩
    cases hcons : others with
    | nil => simp [hcons] at hk
    | cons first rest =>
      exact rank_le_of_raiseGreatest _ (hothers.symm.trans hcons) k (hperm.mem_iff.1 hk)
  · cases hcons : others with
    | nil => simpa using hlevel
    | cons first rest =>
      simpa using (hbeneath first (by simp [hcons])).2.2
  · have hlower : (others.map Literal.atom).Nodup :=
      (hperm.map Literal.atom).nodup_iff.2 (by simpa using h.distinct)
    refine List.nodup_cons.2 ⟨fun hmem => ?_, hlower⟩
    obtain ⟨k, hk, ha⟩ := List.mem_map.1 hmem
    have := (hbeneath k hk).2.2
    rw [ha, Literal.atom_negate, hself] at this
    exact absurd this (lt_irrefl _)
  · intro v hv
    refine (satisfies_congr fun k => ?_).1 (h.entailed v hv)
    simp only [Lemma.literals, List.nil_append, List.singleton_append]
    exact (hperm.symm.cons _).mem_iff

/-- A clause is learnt from every clause found false above level zero. -/
theorem analyze?_spec {t : Trail} {s : ClauseStore} {key : Nat} {seen : Array Bool}
    (hc : Coherent t s) (hseen : Unmarked seen t.atoms) (hlevel : 0 < t.level)
    (hkey : Falsified t s key) (activity : Activity) :
    ∃ analysis, analyze? t s seen activity key = some analysis ∧ Learns t s analysis.learnt ∧
      Unmarked analysis.seen t.atoms := by
  obtain ⟨present, hne, h⟩ := Resolving.start hc hseen hlevel hkey activity
  obtain ⟨m, earlier, r, hwalk, hm, hmself, h'⟩ := h.walk hc (List.suffix_refl _) hlevel hne
  rw [analyze?, hwalk]
  refine ⟨_, rfl, h'.learns (Trail.mem_of_suffix hm) hmself hlevel _ rfl, ?_⟩
  simp only
  rw [← Array.foldl_toList]
  refine Unmarked.of_foldl _ _ h'.size_eq (?_) ?_
  · intro k hk
    exact hc.trail.atom_lt_of_negate (h'.beneath k hk).1
  · intro a ha
    simpa using (h'.seen_iff a).1 ha

end IncrementalSat.Cdcl
