import IncrementalSat.Cdcl.Propagation
import IncrementalSat.Proofs.Coherence

/-!
# What propagation establishes

While the list of a falsified literal is inspected, the trail and the store with the rest of the
list put back are coherent, every clause is settled up to the falsified literal, and the clauses
that have been inspected are settled one literal further.  Each inspection keeps this, so
propagation ends with all clauses settled up to the end of the trail, or with a clause whose
literals are all false, one of them at the present level.  It never changes which valuations respect
trail and store.
-/

set_option autoImplicit false

namespace IncrementalSat.Cdcl

open scoped List

/-- What propagation may do to a trail and a store: extend the trail by forced literals, rearrange
the clauses, and nothing that matters to a valuation. -/
structure Derives (t : Trail) (s : ClauseStore) (u : Trail) (r : ClauseStore) : Prop where
  trail : t.Extends u
  forced : ∀ l ∈ u.literals, u.reasonOf l.atom = none → l ∈ t.literals
  store : s.Extends r
  size_eq : r.clauses.size = s.clauses.size
  respects_iff : ∀ v, Respects v u r ↔ Respects v t s

namespace Derives

variable {t u w : Trail} {s r q : ClauseStore}

/-- Propagation may do nothing. -/
theorem refl (t : Trail) (s : ClauseStore) : Derives t s t s :=
  ⟨.refl t, fun _ hl _ => hl, .refl s, rfl, fun _ => Iff.rfl⟩

/-- What propagation may do in two steps it may do in one. -/
theorem trans (h : Derives t s u r) (h' : Derives u r w q) : Derives t s w q where
  trail := h.trail.trans h'.trail
  forced l hl hr := by
    have hu := h'.forced l hl hr
    rw [Trail.reasonOf_congr (h'.trail.current l hu)] at hr
    exact h.forced l hu hr
  store := h.store.trans h'.store
  size_eq := h'.size_eq.trans h.size_eq
  respects_iff v := (h'.respects_iff v).trans (h.respects_iff v)

/-- Rearranging the literals of a clause is such a step. -/
theorem replace (t : Trail) {key : Nat} {c : Clause}
    (hperm : c.literals ~ (s.clause key).literals) (hlearnt : c.learnt = (s.clause key).learnt) :
    Derives t s t (s.replace key c) :=
  ⟨.refl t, fun _ hl _ => hl, .replace hperm hlearnt, ClauseStore.size_replace .., fun _ =>
    Respects.rearrange_iff (.replace hperm hlearnt) (ClauseStore.size_replace ..)⟩

/-- The position of propagation does not matter to such a step. -/
theorem withHead (t : Trail) (s : ClauseStore) (n : Nat) : Derives t s { t with head := n } s :=
  ⟨⟨List.prefix_refl _, fun _ _ => rfl, rfl, rfl⟩, fun _ hl _ => hl, .refl s, rfl, fun _ =>
    ⟨fun h => ⟨h.clauses, h.fixed⟩, fun h => ⟨h.clauses, h.fixed⟩⟩⟩

/-- What becomes of the watch lists does not matter to such a step. -/
theorem of_clauses_eq (t : Trail) (h : r.clauses = s.clauses) : Derives t s t r := by
  have hclause : ∀ key, r.clause key = s.clause key := fun key => by
    simp only [ClauseStore.clause, h]
  have hsize : r.clauses.size = s.clauses.size := by rw [h]
  have hext : s.Extends r :=
    ⟨hsize.ge, fun key _ => by rw [hclause], fun key _ => by rw [hclause]⟩
  exact ⟨.refl t, fun _ hl _ => hl, hext, hsize, fun _ => Respects.rearrange_iff hext hsize⟩

/-- What holds of the literals that were there, and of each literal of a clause whose other literals
are false by literals of which it holds, holds of whatever is derived: the reason of a literal
derives it from earlier ones, and a literal without a reason was there before. -/
theorem forall_mem (h : Derives t s u r) (hu : Coherent u r) {P : Literal → Prop}
    (hgiven : ∀ l ∈ t.literals, P l)
    (hforced : ∀ key < s.clauses.size, ∀ l ∈ (s.clause key).literals,
      (∀ m ∈ (s.clause key).literals, m ≠ l → P m.negate) → P l) :
    ∀ l ∈ u.literals, P l := by
  -- by induction on the trail, from its first literal on
  have hall : ∀ suffix : List Literal, suffix <:+ u.backwards → ∀ l ∈ suffix, P l := by
    intro suffix
    induction suffix with
    | nil => exact fun _ l hl => absurd hl List.not_mem_nil
    | cons first earlier ih =>
      intro hsuffix l hl
      have hearlier := ih ((List.suffix_cons first earlier).trans hsuffix)
      rcases List.mem_cons.1 hl with rfl | hl
      · cases hreason : u.reasonOf l.atom with
        | none => exact hgiven l (h.forced l (Trail.mem_of_suffix hsuffix) hreason)
        | some key =>
          have hforces := hu.forced hsuffix hreason
          have hkey : key < s.clauses.size := h.size_eq ▸ hforces.key_lt
          refine hforced key hkey l ((h.store.mem_iff hkey).1 hforces.mem) fun m hm hne => ?_
          exact hearlier _ (hforces.others m ((h.store.mem_iff hkey).2 hm) hne)
      · exact hearlier l hl
  exact fun l hl => hall u.backwards (List.suffix_refl _) l (Trail.mem_backwards.2 hl)

end Derives

/-- A clause is found false: all its literals are false, one of them at the present level. -/
structure Falsified (t : Trail) (s : ClauseStore) (key : Nat) : Prop where
  key_lt : key < s.clauses.size
  negate_mem : ∀ l ∈ (s.clause key).literals, l.negate ∈ t.literals
  level : ∃ l ∈ (s.clause key).literals, t.levelOf l.atom = t.level

/-! ## What is to be done about a clause -/

namespace Clause

variable {c : Clause} {t : Trail}

/-- A clause that may stay has a true first literal. -/
theorem valueOf_first_of_rest (h : c.duty t = .rest) : t.valueOf c.first = some true := by
  unfold duty at h
  split at h <;> first | assumption | contradiction

/-- A clause that moves has the replacement it moves to. -/
theorem replacement_of_move {position : Nat} (h : c.duty t = .move position) :
    c.replacement? t = some position := by
  unfold duty at h
  split at h
  · contradiction
  · rename_i hreplacement _
    obtain rfl := Duty.move.inj h
    exact hreplacement
  · contradiction
  · contradiction

/-- A clause that forces its first literal has no replacement. -/
theorem replacement_of_force (h : c.duty t = .force) : c.replacement? t = none := by
  unfold duty at h
  split at h <;> first | assumption | contradiction

/-- A clause that clashes has no replacement, and its first literal is false. -/
theorem of_clash (h : c.duty t = .clash) :
    c.replacement? t = none ∧ t.valueOf c.first = some false := by
  unfold duty at h
  split at h <;> first | exact ⟨by assumption, by assumption⟩ | contradiction

/-- A clause without a replacement has no unwatched literal that is not false. -/
theorem negate_mem_of_replacement_eq_none (hwf : t.WellFormed) (h : c.replacement? t = none)
    {l : Literal} (hl : l ∈ c.others.toList) : l.negate ∈ t.literals := by
  unfold replacement? at h
  rw [Array.findIdx?_eq_none_iff] at h
  have := h l (Array.mem_toList_iff.1 hl)
  rw [← hwf.valueOf_eq_false_iff]
  simpa using this

/-- The replacement of a watch is an unwatched literal that is not false. -/
theorem of_replacement_eq_some (hwf : t.WellFormed) {position : Nat}
    (h : c.replacement? t = some position) :
    ∃ hlt : position < c.others.size, c.others[position].negate ∉ t.literals := by
  unfold replacement? at h
  rw [Array.findIdx?_eq_some_iff_getElem] at h
  obtain ⟨hlt, hp, -⟩ := h
  refine ⟨hlt, ?_⟩
  intro hmem
  rw [← hwf.valueOf_eq_false_iff] at hmem
  simp [hmem] at hp

end Clause

/-! ## The inspection of a watch list -/

/-- Below the next position there is one more literal, that which falsifies the literal. -/
theorem mem_before_succ_iff {falsified l : Literal} {p : Nat} {t : Trail}
    (h : t.literals[p]? = some falsified.negate) :
    l ∈ t.before (p + 1) ↔ l ∈ t.before p ∨ l = falsified.negate := by
  obtain ⟨hlt, hget⟩ := Array.getElem?_eq_some_iff.1 h
  rw [Trail.mem_before_succ hlt, hget]

/-- A clause that is settled up to a falsified literal and does not watch it is settled beyond
it. -/
theorem Clause.SettledAt.succ {c : Clause} {falsified : Literal} {p : Nat} {t : Trail}
    (hc : c.SettledAt t p) (h : t.literals[p]? = some falsified.negate)
    (hw : ¬ c.Watches falsified) : c.SettledAt t (p + 1) := by
  have hguard : ∀ {w o}, w ≠ falsified → Guarded t p w o → Guarded t (p + 1) w o := by
    intro w o hne hg hmem
    cases (mem_before_succ_iff h).1 hmem with
    | inl hmem => exact hg hmem
    | inr he => exact absurd (Literal.negate_inj.1 he) hne
  exact ⟨hguard (fun he => hw (.inl he.symm)) hc.1, hguard (fun he => hw (.inr he.symm)) hc.2⟩

/-- The state of the inspection of the list of a literal falsified at a position, from an index
on. -/
structure Inspecting (falsified : Literal) (p : Nat) (t : Trail) (s : ClauseStore)
    (watchers : Array Nat) (index : Nat) : Prop where
  coherent : Coherent t (s.setWatchers falsified watchers)
  place : t.literals[p]? = some falsified.negate
  head : t.head = p + 1
  settled : Settled t s p
  /-- A clause that is not still to be inspected is settled beyond the falsified literal. -/
  inspected : ∀ key < s.clauses.size, key ∉ watchers.toList.drop index →
    (s.clause key).SettledAt t (p + 1)

/-- The key at an index of the list, and its clause with the falsified literal put second. -/
structure Reached (falsified : Literal) (s : ClauseStore) (watchers : Array Nat)
    (index key : Nat) (c : Clause) : Prop where
  lt_size : index < watchers.size
  key_eq : watchers[index] = key
  clause_eq : (s.clause key).demote falsified = c

/-- The clause reached has the literals of the stored one. -/
theorem Reached.perm {falsified : Literal} {s : ClauseStore} {watchers : Array Nat}
    {index key : Nat} {c : Clause} (hr : Reached falsified s watchers index key c) :
    c.literals ~ (s.clause key).literals :=
  hr.clause_eq ▸ Clause.perm_demote _ _

/-- The clause reached is learnt if the stored one is. -/
theorem Reached.learnt {falsified : Literal} {s : ClauseStore} {watchers : Array Nat}
    {index key : Nat} {c : Clause} (hr : Reached falsified s watchers index key c) :
    c.learnt = (s.clause key).learnt :=
  hr.clause_eq ▸ Clause.learnt_demote _ _

namespace Inspecting

variable {falsified : Literal} {p : Nat} {t : Trail} {s : ClauseStore} {watchers : Array Nat}
  {index : Nat}

/-- The falsified literal has its place on the trail. -/
theorem lt_size (h : Inspecting falsified p t s watchers index) : p < t.literals.size :=
  (Array.getElem?_eq_some_iff.1 h.place).1

/-- The literal whose list is inspected is false. -/
theorem negate_mem (h : Inspecting falsified p t s watchers index) :
    falsified.negate ∈ t.literals :=
  Array.mem_of_getElem? h.place

/-- The literal whose list is inspected has a list. -/
theorem code_lt (h : Inspecting falsified p t s watchers index) :
    falsified.code < s.watches.size := by
  have hlt := h.coherent.trail.atom_lt_of_negate h.negate_mem
  have hcode := h.coherent.store.code_lt hlt
  rwa [ClauseStore.size_watches_setWatchers] at hcode

/-- The falsified literal is of the present level. -/
theorem levelOf_eq (h : Inspecting falsified p t s watchers index) :
    t.levelOf falsified.atom = t.level := by
  obtain ⟨earlier, he, hlen⟩ := Trail.exists_suffix_of_getElem? h.place
  rw [← Literal.atom_negate, h.coherent.trail.level_eq he, Trail.level, ← Array.length_toList,
    List.countP_eq_length]
  intro n hn
  have hle := h.settled.limits_le n (Array.mem_toList_iff.1 hn)
  simp only [decide_eq_true_eq]
  omega

/-- With a clause replaced by one settled further all clauses are settled as before. -/
theorem settled_replace (h : Inspecting falsified p t s watchers index) {u : Trail}
    (hext : t.Extends u) (key : Nat) {d : Clause} (hd : d.SettledAt u (p + 1)) :
    Settled u (s.replace key d) p where
  limits_le n hn := h.settled.limits_le n (hext.limits ▸ hn)
  clauses := by
    apply ClauseStore.forall_replace fun c => c.SettledAt u p
    · intro k hk _
      exact (h.settled.clauses k hk).extend hext h.lt_size.le
    · exact ⟨hd.1.mono (Nat.le_succ p), hd.2.mono (Nat.le_succ p)⟩

section Step

variable {key : Nat} {c : Clause} (h : Inspecting falsified p t s watchers index)
  (hr : Reached falsified s watchers index key c)
include h hr

/-- The clause reached is stored and watches the falsified literal. -/
theorem watches : key < s.clauses.size ∧ (s.clause key).Watches falsified := by
  have hmem : key ∈ (s.setWatchers falsified watchers).watchers falsified := by
    rw [ClauseStore.watchers_setWatchers_self h.code_lt, ← hr.key_eq]
    exact Array.getElem_mem hr.lt_size
  exact (h.coherent.store.mem_watchers_iff _ _).1 hmem

/-- The clause reached watches the falsified literal second. -/
theorem second_eq : c.second = falsified :=
  hr.clause_eq ▸ Clause.second_demote (h.watches hr).2

/-- The clause reached is over different atoms. -/
theorem apart : c.Apart := by
  rw [Clause.Apart, (hr.perm.map Literal.atom).nodup_iff]
  exact h.coherent.store.apart key (h.watches hr).1

/-- The first watched literal of the clause reached is not the falsified one. -/
theorem first_ne : c.first ≠ falsified := by
  rw [← h.second_eq hr]
  exact (h.apart hr).first_ne_second

/-- The first watched literal of the clause reached has room on the trail. -/
theorem first_atom_lt : c.first.atom < t.atoms := by
  apply h.coherent.store.atom_lt key (h.watches hr).1
  exact hr.perm.mem_iff.1 (Clause.mem_literals_of_watches (.inl rfl))

/-- With the clause reached written back, trail and store are coherent as before. -/
theorem coherent_replace : Coherent t ((s.setWatchers falsified watchers).replace key c) := by
  have hkey := (h.watches hr).1
  refine h.coherent.extendStore (.replace hr.perm hr.learnt)
    (h.coherent.store.replace hkey hr.perm fun l => ?_)
  rw [← hr.clause_eq]
  exact Clause.watches_demote_iff

/-- The second watched literal of the clause reached is guarded by a true first one. -/
theorem guarded_second (hfirst : c.first ∈ t.literals) : Guarded t (p + 1) c.second c.first := by
  intro _
  rw [h.second_eq hr, h.levelOf_eq]
  exact ⟨hfirst, h.coherent.trail.levelOf_le_level hfirst⟩

/-- Once the clause reached is settled, it need not be inspected any more. -/
theorem inspected_replace {u : Trail} (hext : t.Extends u) {d : Clause}
    (hd : d.SettledAt u (p + 1)) {k : Nat} (hk : k < s.clauses.size)
    (hdrop : k ≠ key → k ∉ watchers.toList.drop (index + 1)) :
    ((s.replace key d).clause k).SettledAt u (p + 1) := by
  by_cases he : k = key
  · subst he
    rw [ClauseStore.clause_replace_self hk]
    exact hd
  · rw [ClauseStore.clause_replace_ne he]
    refine (h.inspected k hk ?_).extend hext h.lt_size
    have hlen : index < watchers.toList.length := hr.lt_size
    rw [List.drop_eq_getElem_cons hlen, List.mem_cons, not_or]
    exact ⟨fun heq => he (heq.trans hr.key_eq), hdrop he⟩

/-- A clause whose first watched literal is true stays in the list. -/
theorem rest (hduty : c.duty t = .rest) :
    Inspecting falsified p t (s.replace key c) watchers (index + 1) := by
  have hfirst := h.coherent.trail.valueOf_eq_true_iff.1 (Clause.valueOf_first_of_rest hduty)
  have hsettled : c.SettledAt t (p + 1) :=
    ⟨Guarded.of_not_mem (h.coherent.trail.negate_not_mem hfirst), h.guarded_second hr hfirst⟩
  refine
    { coherent := h.coherent_replace hr, place := h.place, head := h.head
      settled := h.settled_replace (.refl t) key hsettled, inspected := ?_ }
  intro k hk hdrop
  rw [ClauseStore.size_replace] at hk
  exact h.inspected_replace hr (.refl t) hsettled hk fun _ => hdrop

/-! ### A new watch -/

/-- The first watched literal is not false below, as its partner would have been true. -/
theorem negate_first_not_mem : c.first.negate ∉ t.before (p + 1) := by
  intro hmem
  cases (mem_before_succ_iff h.place).1 hmem with
  | inl hmem =>
    have hold : c.SettledAt t p := by
      rw [← hr.clause_eq, Clause.settledAt_demote_iff]
      exact h.settled.clauses key (h.watches hr).1
    have htrue := (hold.1 hmem).1
    rw [h.second_eq hr] at htrue
    exact h.coherent.trail.negate_not_mem htrue h.negate_mem
  | inr he => exact h.first_ne hr (Literal.negate_inj.1 he)

/-- A clause with an unwatched literal that is not false moves to the list of that literal. -/
theorem move {position : Nat} (hduty : c.duty t = .move position) :
    Inspecting falsified p t
      ((s.replace key (c.rewatch position)).watch (c.rewatch position).second key)
      (Table.removeSwapping watchers index hr.lt_size) index := by
  obtain ⟨hposition, hnot⟩ :=
    Clause.of_replacement_eq_some h.coherent.trail (Clause.replacement_of_move hduty)
  have hsecond : (c.rewatch position).second = c.others[position] := by
    rw [Clause.rewatch_eq hposition]
  rw [← hsecond] at hnot
  have hne : (c.rewatch position).second ≠ falsified := by
    intro he
    rw [he] at hnot
    exact hnot h.negate_mem
  have hsettled : (c.rewatch position).SettledAt t (p + 1) := by
    refine ⟨?_, Guarded.of_not_mem hnot⟩
    intro hmem
    rw [Clause.first_rewatch] at hmem
    exact absurd hmem (h.negate_first_not_mem hr)
  have hext := ClauseStore.Extends.replace ((Clause.perm_rewatch c position).trans hr.perm)
    ((Clause.learnt_rewatch c position).trans hr.learnt)
  have hreplaced := h.settled_replace (.refl t) key hsettled
  refine { coherent := ?_, place := h.place, head := h.head, settled := ?_, inspected := ?_ }
  · refine h.coherent.extendStore ⟨hext.size_le, hext.perm, hext.learnt⟩ ?_
    rw [← ClauseStore.setWatchers_watch_comm hne key watchers]
    obtain ⟨hindex, rfl, hc⟩ := hr
    exact h.coherent.store.move (ClauseStore.watchers_setWatchers_self h.code_lt watchers) hindex
      hc.symm hposition
  · exact ⟨hreplaced.limits_le, hreplaced.clauses⟩
  · intro k hk hdrop
    have hk' : k < s.clauses.size := lt_of_lt_of_eq hk (ClauseStore.size_replace ..)
    refine h.inspected_replace hr (.refl t) hsettled hk' fun _ => ?_
    rwa [← (Table.drop_removeSwapping watchers hr.lt_size).mem_iff]

/-! ### Forced literals and conflicts -/

/-- Without a replacement the literals of the clause reached, apart from its first, are false. -/
theorem negate_mem_of_replacement (hnone : c.replacement? t = none) {l : Literal}
    (hl : l ∈ c.literals) (hne : l ≠ c.first) : l.negate ∈ t.literals := by
  rw [Clause.literals, List.mem_cons, List.mem_cons, h.second_eq hr] at hl
  rcases hl with rfl | rfl | hl
  · exact absurd rfl hne
  · exact h.negate_mem
  · exact Clause.negate_mem_of_replacement_eq_none h.coherent.trail hnone hl

/-- The falsified literal is in the clause reached. -/
theorem second_mem : falsified ∈ c.literals :=
  Clause.mem_literals_of_watches (.inr (h.second_eq hr).symm)

section Force

variable (hduty : c.duty t = .force)
include hduty

/-- The literal that is forced extends the trail, for it was open. -/
theorem extends_force : t.Extends (t.assign c.first (some key)) :=
  .assign h.coherent.trail (some key) (h.first_atom_lt hr) (Clause.valueOf_first_of_force hduty)

/-- Trail and store are coherent with the literal forced: the other literals of its reason are
false, one of them at the present level. -/
theorem coherent_force : Coherent (t.assign c.first (some key))
    ((s.setWatchers falsified watchers).replace key c) := by
  have hkey := (h.watches hr).1
  have hclause : ((s.setWatchers falsified watchers).replace key c).clause key = c :=
    ClauseStore.clause_replace_self hkey c
  apply (h.coherent_replace hr).assign_forced (h.first_atom_lt hr)
    (Clause.valueOf_first_of_force hduty)
  · rw [ClauseStore.size_replace]
    exact hkey
  · rw [hclause]
    exact Clause.mem_literals_of_watches (.inl rfl)
  · rw [hclause]
    intro l
    exact h.negate_mem_of_replacement hr (Clause.replacement_of_force hduty)
  · rw [hclause]
    exact ⟨falsified, h.second_mem hr, (h.first_ne hr).symm, h.levelOf_eq⟩

/-- The clause that forces a literal is settled, as its first watched literal is true now. -/
theorem settledAt_force : c.SettledAt (t.assign c.first (some key)) (p + 1) := by
  have hwf := (h.coherent_force hr hduty).trail
  have hfirst := Trail.mem_assign_self (some key) (h.first_atom_lt hr)
  have hext := h.extends_force hr hduty
  refine ⟨Guarded.of_not_mem (hwf.negate_not_mem hfirst), ?_⟩
  intro _
  rw [h.second_eq hr, hext.levelOf_eq_of_negate h.negate_mem, h.levelOf_eq, ← hext.level_eq]
  exact ⟨hfirst, hwf.levelOf_le_level hfirst⟩

/-- A clause whose other literals are false makes its first watched literal true. -/
theorem force : Inspecting falsified p (t.assign c.first (some key)) (s.replace key c) watchers
    (index + 1) := by
  have hext := h.extends_force hr hduty
  have hsettled := h.settledAt_force hr hduty
  refine
    { coherent := h.coherent_force hr hduty, place := ?_, head := ?_
      settled := h.settled_replace hext key hsettled, inspected := ?_ }
  · rw [Trail.literals_assign _ (h.first_atom_lt hr), Array.getElem?_push_lt h.lt_size,
      ← Array.getElem?_eq_getElem h.lt_size]
    exact h.place
  · rw [Trail.head_assign]
    exact h.head
  · intro k hk hdrop
    rw [ClauseStore.size_replace] at hk
    exact h.inspected_replace hr hext hsettled hk fun _ => hdrop

/-- A literal that is forced is derived: a valuation that respects what was there makes it true. -/
theorem derives_force : Derives t s (t.assign c.first (some key)) (s.replace key c) := by
  have hkey := (h.watches hr).1
  have hroom := h.first_atom_lt hr
  refine (Derives.replace t hr.perm hr.learnt).trans
    { trail := h.extends_force hr hduty, forced := ?_, store := .refl _, size_eq := rfl
      respects_iff := ?_ }
  · intro l hl hreason
    apply ((Trail.mem_assign_iff _ hroom).1 hl).resolve_right
    intro he
    rw [he, Trail.reasonOf_assign_self _ hroom] at hreason
    exact absurd hreason (Option.some_ne_none _)
  · intro v
    apply Respects.assign_forced_iff h.coherent.trail key hroom
      (Clause.valueOf_first_of_force hduty)
    · rw [ClauseStore.size_replace]
      exact hkey
    · rw [ClauseStore.clause_replace_self hkey]
      intro l
      exact h.negate_mem_of_replacement hr (Clause.replacement_of_force hduty)

end Force

/-- A clause without a true or open literal is false. -/
theorem falsified_clash (hduty : c.duty t = .clash) : Falsified t (s.replace key c) key := by
  obtain ⟨hreplacement, hfirst⟩ := Clause.of_clash hduty
  have hkey := (h.watches hr).1
  refine ⟨?_, ?_, ?_⟩
  · rw [ClauseStore.size_replace]
    exact hkey
  · rw [ClauseStore.clause_replace_self hkey]
    intro l hl
    by_cases he : l = c.first
    · rw [he]
      exact h.coherent.trail.valueOf_eq_false_iff.1 hfirst
    · exact h.negate_mem_of_replacement hr hreplacement hl he
  · rw [ClauseStore.clause_replace_self hkey]
    exact ⟨falsified, h.second_mem hr, h.levelOf_eq⟩

/-- A clash leaves all clauses settled as far as they were. -/
theorem settled_clash : Settled t (s.replace key c) p where
  limits_le := h.settled.limits_le
  clauses := by
    apply ClauseStore.forall_replace fun c => c.SettledAt t p
    · intro k hk _
      exact h.settled.clauses k hk
    · rw [← hr.clause_eq, Clause.settledAt_demote_iff]
      exact h.settled.clauses key (h.watches hr).1

end Step

end Inspecting

/-- What the inspection of a list ends with. -/
structure Inspected (falsified : Literal) (p : Nat) (t : Trail) (s : ClauseStore)
    (r : Inspection) : Prop where
  derives : Derives t s r.trail r.store
  coherent : Coherent r.trail (r.store.setWatchers falsified r.watchers)
  head : r.trail.head = p + 1
  settled : r.conflict = none → Settled r.trail r.store (p + 1)
  conflict : ∀ key, r.conflict = some key →
    Falsified r.trail r.store key ∧ Settled r.trail r.store p

/-- What an inspection ends with may be told of where it began. -/
theorem Inspected.of_derives {falsified : Literal} {p : Nat} {t u : Trail} {s r : ClauseStore}
    {i : Inspection} (h : Derives t s u r) (hi : Inspected falsified p u r i) :
    Inspected falsified p t s i :=
  { hi with derives := h.trans hi.derives }

/-- The inspection of a list settles the clauses beyond the falsified literal or finds a clause
false. -/
theorem inspected_inspect {falsified : Literal} {p : Nat} {t : Trail} {s : ClauseStore}
    {watchers : Array Nat} {index : Nat} (h : Inspecting falsified p t s watchers index) :
    Inspected falsified p t s (inspect falsified t s watchers index) := by
  fun_induction inspect falsified t s watchers index with
  | case1 t s watchers index hindex key clause hduty ih =>
    have hr : Reached falsified s watchers index key clause := ⟨hindex, rfl, rfl⟩
    exact .of_derives (.replace t hr.perm hr.learnt) (ih (h.rest hr hduty))
  | case2 t s watchers index hindex key clause position hduty moved ih =>
    have hr : Reached falsified s watchers index key clause := ⟨hindex, rfl, rfl⟩
    have hderives : Derives t s t (s.replace key moved) :=
      .replace t ((Clause.perm_rewatch _ _).trans hr.perm)
        ((Clause.learnt_rewatch _ _).trans hr.learnt)
    have hwatched : Derives t s t ((s.replace key moved).watch moved.second key) :=
      hderives.trans (.of_clauses_eq t rfl)
    exact .of_derives hwatched (ih (h.move hr hduty))
  | case3 t s watchers index hindex key clause hduty ih =>
    have hr : Reached falsified s watchers index key clause := ⟨hindex, rfl, rfl⟩
    exact .of_derives (h.derives_force hr hduty) (ih (h.force hr hduty))
  | case4 t s watchers index hindex key clause hduty =>
    have hr : Reached falsified s watchers index key clause := ⟨hindex, rfl, rfl⟩
    refine
      { derives := .replace t hr.perm hr.learnt, coherent := h.coherent_replace hr
        head := h.head, settled := fun hnone => absurd hnone (Option.some_ne_none _)
        conflict := ?_ }
    intro k hk
    obtain rfl := Option.some.inj hk
    exact ⟨h.falsified_clash hr hduty, h.settled_clash hr⟩
  | case5 t s watchers index hindex =>
    refine
      { derives := .refl t s, coherent := h.coherent, head := h.head, settled := fun _ => ?_
        conflict := fun k hk => absurd hk.symm (Option.some_ne_none _) }
    refine ⟨fun n hn => (h.settled.limits_le n hn).trans (Nat.le_succ p), fun key hkey => ?_⟩
    have hnil : watchers.toList.drop index = [] := by
      rw [List.drop_eq_nil_iff, Array.length_toList]
      omega
    exact h.inspected key hkey (by rw [hnil]; exact List.not_mem_nil)

/-! ## Propagation -/

/-- What propagation ends with: everything propagated, and the clauses settled up to the end of the
trail unless a clause is false. -/
structure Propagated (t : Trail) (s : ClauseStore) (r : Trail × ClauseStore × Option Nat) :
    Prop where
  derives : Derives t s r.1 r.2.1
  coherent : Coherent r.1 r.2.1
  head : r.1.head = r.1.literals.size
  settled : r.2.2 = none → Settled r.1 r.2.1 r.1.head
  conflict : ∀ key, r.2.2 = some key →
    Falsified r.1 r.2.1 key ∧ ∃ p, Settled r.1 r.2.1 p

/-- At the start every clause that does not watch the falsified literal is settled beyond it. -/
theorem Inspecting.start {t : Trail} {s : ClauseStore} (h : Coherent t s)
    (hs : Settled t s t.head) (hlt : t.head < t.literals.size) :
    Inspecting t.literals[t.head].negate t.head { t with head := t.head + 1 }
      (s.setWatchers t.literals[t.head].negate #[]) (s.watchers t.literals[t.head].negate) 0 := by
  have hplace : t.literals[t.head]? = some t.literals[t.head].negate.negate := by
    rw [Literal.negate_negate, Array.getElem?_eq_getElem hlt]
  refine { coherent := ?_, place := hplace, head := rfl, settled := ⟨hs.limits_le, hs.clauses⟩
           inspected := ?_ }
  · rw [ClauseStore.setWatchers_setWatchers, ClauseStore.setWatchers_watchers]
    exact h.withHead (Nat.le_succ _) hlt
  · intro key hkey hdrop
    refine (hs.clauses key hkey).succ hplace fun hw => hdrop ?_
    rw [List.drop_zero, Array.mem_toList_iff, h.store.mem_watchers_iff]
    exact ⟨hkey, hw⟩

/-- With its list put aside and back, the inspection of a literal is a step of propagation. -/
theorem Inspected.derives_settled {falsified : Literal} {n : Nat} {t : Trail} {s : ClauseStore}
    {i : Inspection} (h : Inspected falsified t.head { t with head := n }
      (s.setWatchers falsified #[]) i) :
    Derives t s i.trail (i.store.setWatchers falsified i.watchers) := by
  have hstart : Derives t s { t with head := n } (s.setWatchers falsified #[]) :=
    (Derives.withHead t s n).trans (.of_clauses_eq _ rfl)
  exact (hstart.trans h.derives).trans (.of_clauses_eq _ rfl)

/-- From a coherent trail and store, settled so far, propagation settles every clause or finds one
false. -/
theorem propagated_propagate {t : Trail} {s : ClauseStore} (h : Coherent t s)
    (hs : Settled t s t.head) : Propagated t s (propagate t s) := by
  fun_induction propagate t s with
  | case1 t s hlt falsified result settled key hconflict =>
    have hi : Inspected falsified t.head { t with head := t.head + 1 }
      (s.setWatchers falsified #[]) result := inspected_inspect (.start h hs hlt)
    obtain ⟨hfalse, hsettled⟩ := hi.conflict key hconflict
    exact
      { derives := hi.derives_settled.trans (.withHead ..)
        coherent := hi.coherent.withHead hi.coherent.trail.head_le_size le_rfl
        head := rfl
        settled := fun hnone => absurd hnone (Option.some_ne_none _)
        conflict := fun k hk => by
          obtain rfl := Option.some.inj hk
          exact ⟨⟨hfalse.key_lt, hfalse.negate_mem, hfalse.level⟩, t.head,
            ⟨hsettled.limits_le, hsettled.clauses⟩⟩ }
  | case2 t s hlt falsified result settled hconflict ih =>
    have hi : Inspected falsified t.head { t with head := t.head + 1 }
      (s.setWatchers falsified #[]) result := inspected_inspect (.start h hs hlt)
    have hsettled : Settled result.trail settled result.trail.head := by
      rw [hi.head]
      exact ⟨(hi.settled hconflict).limits_le, (hi.settled hconflict).clauses⟩
    have hp := ih hi.coherent hsettled
    exact { hp with derives := hi.derives_settled.trans hp.derives }
  | case3 t s hlt =>
    have hhead : t.head = t.literals.size := le_antisymm h.trail.head_le_size (by omega)
    exact
      { derives := .refl t s
        coherent := h
        head := hhead
        settled := fun _ => hs
        conflict := fun k hk => absurd hk.symm (Option.some_ne_none _) }

end IncrementalSat.Cdcl
