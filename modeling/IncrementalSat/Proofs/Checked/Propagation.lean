import IncrementalSat.Cdcl.Checked.Propagation
import IncrementalSat.Proofs.Propagation

/-!
# Propagation does not fail

What is read of an atom is there for every atom with room.  The literals of stored clauses have room
and so have watch lists, the keys in the lists are those of stored clauses, a literal is forced only
while it is open, and each literal propagated leaves less to propagate.  So on a coherent trail and
store checked propagation ends with what propagation ends with.
-/

set_option autoImplicit false

namespace IncrementalSat.Cdcl.Checked

/-! ## The trail -/

section Trail

variable {t : Trail} {atom : Nat} {l : Literal}

/-- An atom with room has a slot to read. -/
theorem fetch_slots (h : atom < t.atoms) : fetch t.slots atom = .ok (t.slot atom) :=
  fetch_eq_getD h {}

/-- The value of an atom with room is read without a fault. -/
theorem value_eq (h : atom < t.atoms) : value t atom = .ok (t.value atom) := by
  rw [value, fetch_slots h]
  rfl

/-- The value of a literal with room is read without a fault. -/
theorem valueOf_eq (h : l.atom < t.atoms) : valueOf t l = .ok (t.valueOf l) := by
  rw [valueOf, value_eq h]
  rfl

/-- The level of an atom with room is read without a fault. -/
theorem levelOf_eq (h : atom < t.atoms) : levelOf t atom = .ok (t.levelOf atom) := by
  rw [levelOf, fetch_slots h]
  rfl

/-- The reason of an atom with room is read without a fault. -/
theorem reasonOf_eq (h : atom < t.atoms) : reasonOf t atom = .ok (t.reasonOf atom) := by
  rw [reasonOf, fetch_slots h]
  rfl

/-- The saved phase of an atom with room is read without a fault. -/
theorem saved_eq (h : atom < t.atoms) : saved t atom = .ok (t.saved atom) := by
  rw [saved, fetch_slots h]
  rfl

/-- A literal of an open atom can be made true. -/
theorem assign_eq (h : l.atom < t.atoms) (hopen : t.valueOf l = none) (reason : Option Nat) :
    assign t l reason = .ok (t.assign l reason) := by
  have hslot := fetch_slots h
  have hcurrent : (t.slot l.atom).current = none := by
    simpa [Trail.valueOf, Trail.value] using hopen
  have hput := put_eq_modify h
    (fun s => { s with current := some ⟨l.positive, t.limits.size, reason⟩ }) hslot rfl
  rw [assign, hslot, ok_bind, require_eq hcurrent, ok_bind]
  refine (congrArg (· >>= _) hput).trans ?_
  rw [ok_bind, Trail.assign, if_pos (show l.atom < t.slots.size from h)]
  rfl

/-- An atom with a slot is released without a fault. -/
theorem release_eq {slots : Array Slot} (h : l.atom < slots.size) :
    release slots l = .ok (Trail.release slots l) :=
  put_eq_modify h (fun _ => { current := none, saved := some l.positive }) (fetch_eq h) rfl

/-- On a well-formed trail there is a limit for each level to go back to, and the literals beyond
it can be taken back. -/
theorem backjump_eq (hwf : t.WellFormed) (target : Nat) :
    backjump t target = .ok (t.backjump target) := by
  unfold backjump Trail.backjump
  split
  · rfl
  rename_i hlevel
  have hlt : target < t.level := Nat.lt_of_not_le hlevel
  have hkeep : fetch t.limits target = .ok (t.keep target) := fetch_eq_getD hlt 0
  have hrelease := (foldlM_eq (g := Trail.release)
    (P := fun slots => slots.size = t.atoms)
    (l := t.literals.toList.drop (t.keep target)) (b := t.slots) rfl
    fun slots hsize l hl => by
      have hroom := hwf.atom_lt (Array.mem_toList_iff.1 (List.mem_of_mem_drop hl))
      exact ⟨release_eq (hsize ▸ hroom), by rw [Trail.release, Array.size_modify, hsize]⟩).1
  rw [hkeep, ok_bind, require_eq (hwf.keep_le_size hlt), ok_bind, hrelease]
  rfl

end Trail

/-! ## The clause store -/

section Store

variable {s : ClauseStore}

/-- A key below the number of clauses has a clause to read. -/
theorem clause_eq {key : Nat} (h : key < s.clauses.size) : clause s key = .ok (s.clause key) :=
  fetch_eq_getD h default

/-- A literal with room has a list of watchers to read. -/
theorem watchers_eq {l : Literal} (h : l.code < s.watches.size) :
    watchers s l = .ok (s.watchers l) :=
  fetch_eq_getD h #[]

/-- A literal with room has a list of watchers to replace. -/
theorem setWatchers_eq {l : Literal} (h : l.code < s.watches.size) (keys : Array Nat) :
    setWatchers s l keys = .ok (s.setWatchers l keys) := by
  rw [setWatchers, put_eq h]
  rfl

/-- A key is added without a fault to the watchers of a literal with room. -/
theorem watch_eq {l : Literal} (h : l.code < s.watches.size) (key : Nat) :
    watch s l key = .ok (s.watch l key) := by
  rw [watch, alter_eq h]
  rfl

/-- A clause can be stored if its first two literals have watch lists. -/
theorem attach_eq {first second : Literal} (hfirst : first.code < s.watches.size)
    (hsecond : second.code < s.watches.size) (others : List Literal) (learnt : Bool) :
    attach s (first :: second :: others) learnt = .ok (s.attach first second others learnt) := by
  have hwatched : second.code < (s.watch first s.clauses.size).watches.size := by
    rwa [ClauseStore.size_watches_watch]
  simp only [attach, watch_eq hfirst, watch_eq hwatched, ok_bind]
  rfl

end Store

/-! ## The inspection of a watch list -/

/-- What is to be done about a clause over atoms that have room can be told. -/
theorem duty_eq {t : Trail} {c : Clause} (h : ∀ l ∈ c.literals, l.atom < t.atoms) :
    duty t c = .ok (c.duty t) := by
  have hfirst : c.first.atom < t.atoms := h _ (Clause.mem_literals_of_watches (.inl rfl))
  have hposition : position (fun l => do return (← valueOf t l) != some false) c.others.toList =
      .ok (c.replacement? t) := by
    have hothers : c.others.toList.toArray = c.others := Array.toArray_toList
    rw [Clause.replacement?, ← hothers, List.findIdx?_toArray]
    apply position_eq
    intro l hl
    rw [valueOf_eq (h l (List.mem_cons_of_mem _ (List.mem_cons_of_mem _ hl)))]
    rfl
  rw [duty, valueOf_eq hfirst, ok_bind, hposition, Clause.duty]
  cases t.valueOf c.first with
  | none => cases c.replacement? t <;> rfl
  | some b => cases b <;> cases c.replacement? t <;> rfl

/-- Watching another literal of a clause does not fail at a position of the clause. -/
theorem rewatch_eq {c : Clause} {position : Nat} (h : position < c.others.size) :
    rewatch c position = .ok (c.rewatch position) := by
  rw [rewatch, fetch_eq h, ok_bind, put_eq h, ok_bind, Clause.rewatch,
    Array.getElem?_eq_getElem h]
  rfl

section Inspect

variable {falsified : Literal} {p : Nat} {t : Trail} {s : ClauseStore} {watchers : Array Nat}
  {index : Nat}

/-- The literals of the clause reached have room. -/
theorem atom_lt_of_reached {key : Nat} {c : Clause}
    (h : Inspecting falsified p t s watchers index)
    (hr : Reached falsified s watchers index key c) : ∀ l ∈ c.literals, l.atom < t.atoms :=
  fun l hl => h.coherent.store.atom_lt key (h.watches hr).1 l (hr.perm.mem_iff.1 hl)

/-- An inspection does with the clause reached what is to be done about it. -/
theorem inspect_reached {key : Nat} {c : Clause} (h : Inspecting falsified p t s watchers index)
    (hr : Reached falsified s watchers index key c) :
    inspect falsified t s watchers index =
      match c.duty t with
      | .rest => inspect falsified t (s.replace key c) watchers (index + 1)
      | .move position => do
        let moved ← rewatch c position
        let store ← watch (s.replace key moved) moved.second key
        inspect falsified t store (Table.removeSwapping watchers index hr.lt_size) index
      | .force => do
        let trail ← assign t c.first (some key)
        inspect falsified trail (s.replace key c) watchers (index + 1)
      | .clash => .ok ⟨t, s.replace key c, watchers, some key⟩ := by
  have hclause := clause_eq (h.watches hr).1
  have hduty := duty_eq (atom_lt_of_reached h hr)
  rw [inspect, dif_pos hr.lt_size]
  dsimp only
  rw [hr.key_eq, hclause, ok_bind, hr.clause_eq, hduty, ok_bind]
  rfl

/-- A clause with a replacement can be moved to the list of the replacement. -/
theorem move_eq {key : Nat} {c : Clause} (h : Inspecting falsified p t s watchers index)
    (hr : Reached falsified s watchers index key c) {position : Nat}
    (hduty : c.duty t = .move position) :
    rewatch c position = .ok (c.rewatch position) ∧
      watch (s.replace key (c.rewatch position)) (c.rewatch position).second key =
        .ok ((s.replace key (c.rewatch position)).watch (c.rewatch position).second key) := by
  obtain ⟨hposition, -⟩ :=
    Clause.of_replacement_eq_some h.coherent.trail (Clause.replacement_of_move hduty)
  have hmem := (Clause.second_rewatch (h.apart hr) hposition).1
  have hcode := h.coherent.store.code_lt (atom_lt_of_reached h hr _ hmem)
  rw [ClauseStore.size_watches_setWatchers] at hcode
  exact ⟨rewatch_eq hposition,
    watch_eq (s := s.replace key (c.rewatch position)) hcode key⟩

/-- The inspection of a watch list does not fail. -/
theorem inspect_eq (h : Inspecting falsified p t s watchers index) :
    inspect falsified t s watchers index = .ok (Cdcl.inspect falsified t s watchers index) := by
  fun_induction Cdcl.inspect falsified t s watchers index with
  | case1 t s watchers index hindex key clause hduty ih =>
    have hr : Reached falsified s watchers index key clause := ⟨hindex, rfl, rfl⟩
    rw [inspect_reached h hr, hduty]
    exact ih (h.rest hr hduty)
  | case2 t s watchers index hindex key clause position hduty moved ih =>
    have hr : Reached falsified s watchers index key clause := ⟨hindex, rfl, rfl⟩
    obtain ⟨hmoved, hwatch⟩ := move_eq h hr hduty
    rw [inspect_reached h hr, hduty]
    dsimp only
    rw [hmoved, ok_bind, hwatch, ok_bind]
    exact ih (h.move hr hduty)
  | case3 t s watchers index hindex key clause hduty ih =>
    have hr : Reached falsified s watchers index key clause := ⟨hindex, rfl, rfl⟩
    have hopen := Clause.valueOf_first_of_force hduty
    rw [inspect_reached h hr, hduty]
    dsimp only
    rw [assign_eq (h.first_atom_lt hr) hopen, ok_bind]
    exact ih (h.force hr hduty)
  | case4 t s watchers index hindex key clause hduty =>
    have hr : Reached falsified s watchers index key clause := ⟨hindex, rfl, rfl⟩
    rw [inspect_reached h hr, hduty]
  | case5 t s watchers index hindex =>
    rw [inspect, dif_neg hindex]
    rfl

end Inspect

/-! ## Propagation -/

/-- The list of a literal falsified by the next literal can be taken, inspected and put back. -/
theorem list_eq {t : Trail} {s : ClauseStore} (h : Coherent t s) (hs : Settled t s t.head)
    (hlt : t.head < t.literals.size) :
    let falsified := t.literals[t.head].negate
    let result := Cdcl.inspect falsified { t with head := t.head + 1 }
      (s.setWatchers falsified #[]) (s.watchers falsified) 0
    watchers s falsified = .ok (s.watchers falsified) ∧
      setWatchers s falsified #[] = .ok (s.setWatchers falsified #[]) ∧
      inspect falsified { t with head := t.head + 1 } (s.setWatchers falsified #[])
        (s.watchers falsified) 0 = .ok result ∧
      setWatchers result.store falsified result.watchers =
        .ok (result.store.setWatchers falsified result.watchers) := by
  intro falsified result
  have hstart := Inspecting.start h hs hlt
  have hi : Inspected falsified t.head { t with head := t.head + 1 }
    (s.setWatchers falsified #[]) result := inspected_inspect hstart
  have hroom := h.trail.atom_lt (Array.getElem_mem hlt)
  have hcode : falsified.code < s.watches.size := h.store.code_lt hroom
  have hsame : result.trail.atoms = t.atoms := hi.derives.trail.atoms
  have hafter : falsified.code < result.store.watches.size := by
    have hsize := hi.coherent.store.code_lt (l := falsified) (hsame ▸ hroom)
    rwa [ClauseStore.size_watches_setWatchers] at hsize
  exact ⟨watchers_eq hcode, setWatchers_eq hcode _, inspect_eq hstart, setWatchers_eq hafter _⟩

/-- With fuel for what is left to propagate, propagation does not fail. -/
theorem propagateWithin_eq {fuel : Nat} {t : Trail} {s : ClauseStore} (h : Coherent t s)
    (hs : Settled t s t.head) (hfuel : t.potential + 1 - t.head < fuel) :
    propagateWithin fuel t s = .ok (Cdcl.propagate t s) := by
  induction fuel generalizing t s with
  | zero => exact absurd hfuel (Nat.not_lt_zero _)
  | succ fuel ih =>
    unfold propagateWithin Cdcl.propagate
    by_cases hlt : t.head < t.literals.size
    swap
    · rw [if_neg hlt, dif_neg hlt]
      rfl
    rw [if_pos hlt, dif_pos hlt, fetch_eq hlt, ok_bind]
    obtain ⟨htaken, haside, hinspect, hsettled⟩ := list_eq h hs hlt
    have hi := inspected_inspect (Inspecting.start h hs hlt)
    have hprogress := inspect_trail t.literals[t.head].negate { t with head := t.head + 1 }
      (s.setWatchers t.literals[t.head].negate #[]) (s.watchers t.literals[t.head].negate) 0
    dsimp only at hsettled ⊢
    rw [htaken, ok_bind, haside, ok_bind, hinspect, ok_bind, hsettled, ok_bind]
    generalize Cdcl.inspect t.literals[t.head].negate { t with head := t.head + 1 }
      (s.setWatchers t.literals[t.head].negate #[]) (s.watchers t.literals[t.head].negate) 0 =
      result at hi hprogress
    cases hconflict : result.conflict with
    | some key => rfl
    | none =>
      refine ih hi.coherent ?_ ?_
      · rw [hi.head]
        exact ⟨(hi.settled hconflict).limits_le, (hi.settled hconflict).clauses⟩
      · -- the literal propagated is one less to propagate
        obtain ⟨hpotential, hhead⟩ := hprogress
        change _ ≤ t.potential at hpotential
        change _ = t.head + 1 at hhead
        have hsize : t.literals.size ≤ t.potential := Nat.le_add_left ..
        omega

/-- On a coherent trail and store, settled so far, propagation does not fail. -/
theorem propagate_eq {t : Trail} {s : ClauseStore} (h : Coherent t s) (hs : Settled t s t.head) :
    propagate t s = .ok (Cdcl.propagate t s) :=
  propagateWithin_eq h hs (by
    have hhead := h.trail.head_le_size
    have hsize : t.literals.size ≤ t.potential := Nat.le_add_left ..
    omega)

end IncrementalSat.Cdcl.Checked
