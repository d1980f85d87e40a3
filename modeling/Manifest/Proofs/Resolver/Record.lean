import Manifest.Proofs.Resolver.Invariant

/-! Resolution with a record of every use that one node makes of another. The record changes
nothing. In one call each need of a node is taken up at most once, and what is done already is not
taken up again. -/
namespace Manifest

variable {σ τ : Type}

/-- A use of a resolved node: what the node at `owner` needed it for, the value that it had, and
what came of that. -/
structure Use where
  owner : Keys
  need : Need
  target : Value
  outcome : Except Error Value

namespace Use

/-- Where a use is made: by its owner and the position among the owner's needs. -/
def place (u : Use) : Keys × Nat := (u.owner, u.need.position)

def question? (u : Use) : Option (Value × String) := u.need.query.map (u.target, ·)

def demand (u : Use) : Keys × Need := (u.owner, u.need)

end Use

def Unfailing (uses : List Use) : Prop := ∀ u ∈ uses, ∃ w, u.outcome = .ok w

def FailedLast (uses : List Use) (e : Error) : Prop :=
  ∃ us u, uses = us ++ [u] ∧ Unfailing us ∧ u.outcome = .error e

theorem Unfailing.concat {us : List Use} {u : Use} {w : Value} (h : Unfailing us)
    (hu : u.outcome = .ok w) : Unfailing (us ++ [u]) :=
  List.forall_mem_append.mpr ⟨h, List.forall_mem_singleton.mpr ⟨w, hu⟩⟩

structure Recorded (σ : Type) where
  world : σ
  uses : List Use := []

def recorded (settle : Settling σ) : Settling (Recorded σ) := fun owner n v =>
  Run.ofStep fun t =>
    let (outcome, world) := Run.exec (settle owner n v) t.world
    (outcome, ⟨world, t.uses ++ [⟨owner, n, v, outcome⟩]⟩)

theorem exec_recorded (settle : Settling σ) (owner : Keys) (n : Need) (v : Value) (t : Recorded σ) :
    Run.exec (recorded settle owner n v) t =
      ((Run.exec (settle owner n v) t.world).1,
        ⟨(Run.exec (settle owner n v) t.world).2,
          t.uses ++ [⟨owner, n, v, (Run.exec (settle owner n v) t.world).1⟩]⟩) := rfl

theorem uses_of_exec_recorded {settle : Settling σ} {owner : Keys} {n : Need} {v : Value}
    {t t' : Recorded σ} {outcome : Except Error Value}
    (h : Run.exec (recorded settle owner n v) t = (outcome, t')) :
    t'.uses = t.uses ++ [⟨owner, n, v, outcome⟩] := by
  rw [exec_recorded] at h
  obtain ⟨rfl, rfl⟩ := Prod.mk.inj h
  rfl

theorem outcome_of_exec_recorded {settle : Settling σ} {owner : Keys} {n : Need} {v : Value}
    {t t' : Recorded σ} {outcome : Except Error Value}
    (h : Run.exec (recorded settle owner n v) t = (outcome, t')) :
    (Run.exec (settle owner n v) t.world).1 = outcome := by
  rw [exec_recorded] at h
  exact (Prod.mk.inj h).1

namespace Progress

def map (f : σ → τ) (p : Progress σ) : Progress τ := ⟨p.stack, p.memo, f p.world⟩

@[simp] theorem map_stack (f : σ → τ) (p : Progress σ) : (p.map f).stack = p.stack := rfl
@[simp] theorem map_memo (f : σ → τ) (p : Progress σ) : (p.map f).memo = p.memo := rfl
@[simp] theorem map_world (f : σ → τ) (p : Progress σ) : (p.map f).world = f p.world := rfl
@[simp] theorem map_push (f : σ → τ) (p : Progress σ) (keys : Keys) :
    (p.push keys).map f = (p.map f).push keys := rfl

def unrecorded (p : Progress σ) : Progress (Recorded σ) := p.map ({ world := · })

theorem forall_uses_unrecorded (p : Progress σ) {P : Use → Prop} :
    ∀ u ∈ p.unrecorded.world.uses, P u := List.forall_mem_nil P

end Progress

namespace Scope

variable {s : Scope} {settle : Settling σ} {settle' : Settling τ}

mutual

theorem Visits.map {f : σ → τ}
    (hf : ∀ owner n v w, Run.exec (settle' owner n v) (f w) =
      ((Run.exec (settle owner n v) w).1, f (Run.exec (settle owner n v) w).2))
    {keys : Keys} {p q : Progress σ} {r : Except Error Value} (h : Visits s settle keys p r q) :
    Visits s settle' keys (p.map f) r (q.map f) := by
  match h with
  | .circle h => exact .circle h
  | .done h hm => exact .done h hm
  | .missing h hm he => exact .missing h hm he
  | .failed (q := q) h hm hv hg => exact .failed (q := q.map f) h hm hv (hg.map hf)
  | .built (q := q) h hm hv hg => exact .built (q := q.map f) h hm hv (hg.map hf)

theorem Gathers.map {f : σ → τ}
    (hf : ∀ owner n v w, Run.exec (settle' owner n v) (f w) =
      ((Run.exec (settle owner n v) w).1, f (Run.exec (settle owner n v) w).2))
    {owner : Keys} {needs : List Need} {p q : Progress σ} {r : Except Error (List Value)}
    (h : Gathers s settle owner needs p r q) :
    Gathers s settle' owner needs (p.map f) r (q.map f) := by
  match h with
  | .nil => exact .nil
  | .unresolved hn => exact .unresolved (hn.map hf)
  | .unsettled (n := n) (q := q) (v := v) hn hs =>
    have hs' := hf owner n v q.world
    rw [hs] at hs'
    exact .unsettled (hn.map hf) hs'
  | .stopped (n := n) (q := q) (v := v) hn hs hg =>
    have hs' := hf owner n v q.world
    rw [hs] at hs'
    exact .stopped (hn.map hf) hs' (hg.map hf)
  | .cons (n := n) (q := q) (v := v) hn hs hg =>
    have hs' := hf owner n v q.world
    rw [hs] at hs'
    exact .cons (hn.map hf) hs' (hg.map hf)

end

theorem Visits.unrecord {keys : Keys} {p q : Progress (Recorded σ)} {r : Except Error Value}
    (h : Visits s (recorded settle) keys p r q) :
    Visits s settle keys (p.map Recorded.world) r (q.map Recorded.world) :=
  h.map fun _ _ _ _ => rfl

mutual

theorem Visits.fresh {keys : Keys} {p q : Progress (Recorded σ)} {r : Except Error Value}
    (h : Visits s (recorded settle) keys p r q) :
    ∀ u ∈ q.world.uses, u ∈ p.world.uses ∨
      u.owner ∉ p.stack ∧ Assoc.find? u.owner p.memo = none := by
  match h with
  | .circle _ | .done .. | .missing .. => exact fun _ hu => .inl hu
  | .failed hs hm _ hg | .built hs hm _ hg =>
    intro u hu
    rcases hg.fresh u hu with hu | rfl | ⟨hk, hn⟩
    · exact .inl hu
    · exact .inr ⟨hs, hm⟩
    · exact .inr ⟨fun hk' => hk (List.mem_append_left _ hk'), hn⟩

theorem Gathers.fresh {owner : Keys} {needs : List Need} {p q : Progress (Recorded σ)}
    {r : Except Error (List Value)} (h : Gathers s (recorded settle) owner needs p r q) :
    ∀ u ∈ q.world.uses, u ∈ p.world.uses ∨ u.owner = owner ∨
      u.owner ∉ p.stack ∧ Assoc.find? u.owner p.memo = none := by
  match h with
  | .nil => exact fun _ hu => .inl hu
  | .unresolved hn => exact fun u hu => (hn.fresh u hu).imp_right .inr
  | .unsettled hn hs =>
    intro u hu
    rw [uses_of_exec_recorded hs, List.mem_append, List.mem_singleton] at hu
    rcases hu with hu | rfl
    · exact (hn.fresh u hu).imp_right .inr
    · exact .inr (.inl rfl)
  | .stopped hn hs hg | .cons hn hs hg =>
    intro u hu
    rcases hg.fresh u hu with hu | rfl | ⟨hk, hu⟩
    · rw [uses_of_exec_recorded hs, List.mem_append, List.mem_singleton] at hu
      rcases hu with hu | rfl
      · exact (hn.fresh u hu).imp_right .inr
      · exact .inr (.inl rfl)
    · exact .inr (.inl rfl)
    · exact .inr (.inr ⟨hn.stack_eq ▸ hk, hn.grows.find?_eq_none hu⟩)

end

/-- No use is recorded twice, and each is by a node that is in progress or done. -/
structure Single (p : Progress (Recorded σ)) : Prop where
  nodup : (p.world.uses.map Use.place).Nodup
  owners : ∀ u ∈ p.world.uses, u.owner ∈ p.stack ∨ ∃ v, Assoc.find? u.owner p.memo = some v

theorem single_unrecorded (p : Progress σ) : Single p.unrecorded :=
  ⟨List.nodup_nil, p.forall_uses_unrecorded⟩

theorem Single.push {p : Progress (Recorded σ)} (h : Single p) (keys : Keys) :
    Single (p.push keys) where
  nodup := h.nodup
  owners := fun u hu => (h.owners u hu).imp_left (List.mem_append_left _)

theorem Single.notMem_places {p : Progress (Recorded σ)} {keys : Keys} (h : Single p)
    (hs : keys ∉ p.stack) (hm : Assoc.find? keys p.memo = none) (i : Nat) :
    (keys, i) ∉ p.world.uses.map Use.place := by
  intro hmem
  obtain ⟨u, hu, he⟩ := List.mem_map.mp hmem
  obtain rfl : u.owner = keys := congrArg Prod.fst he
  rcases h.owners u hu with ho | ⟨v, hv⟩
  · exact hs ho
  · cases hm.symm.trans hv

theorem Visits.notMem_places {keys owner : Keys} {p q : Progress (Recorded σ)}
    {r : Except Error Value} {i : Nat} (h : Visits s (recorded settle) keys p r q)
    (ho : owner ∈ p.stack) (hi : (owner, i) ∉ p.world.uses.map Use.place) :
    (owner, i) ∉ q.world.uses.map Use.place := by
  intro hmem
  obtain ⟨u, hu, he⟩ := List.mem_map.mp hmem
  obtain rfl : u.owner = owner := congrArg Prod.fst he
  rcases h.fresh u hu with hu | ⟨hs, -⟩
  · exact hi (he ▸ List.mem_map_of_mem hu)
  · exact hs ho

theorem Single.use {p : Progress (Recorded σ)} {owner : Keys} {n : Need} {v : Value}
    {outcome : Except Error Value} {world : Recorded σ} (h : Single p)
    (hs : Run.exec (recorded settle owner n v) p.world = (outcome, world)) (ho : owner ∈ p.stack)
    (hn : (owner, n.position) ∉ p.world.uses.map Use.place) :
    Single { p with world } where
  nodup := by
    rw [uses_of_exec_recorded hs, List.map_append]
    exact nodup_concat h.nodup hn
  owners := by
    rw [uses_of_exec_recorded hs]
    exact List.forall_mem_append.mpr ⟨h.owners, List.forall_mem_singleton.mpr (.inl ho)⟩

theorem notMem_places_of_use {p q : Progress (Recorded σ)} {owner : Keys} {n : Need}
    {needs : List Need} {v : Value} {outcome : Except Error Value} {world : Recorded σ}
    (hn : Visits s (recorded settle) n.keys p (.ok v) q)
    (hs : Run.exec (recorded settle owner n v) q.world = (outcome, world)) (ho : owner ∈ p.stack)
    (hd : ((n :: needs).map Need.position).Nodup)
    (hnew : ∀ m ∈ n :: needs, (owner, m.position) ∉ p.world.uses.map Use.place) :
    ∀ m ∈ needs, (owner, m.position) ∉ world.uses.map Use.place := by
  intro m hm
  have hq := hn.notMem_places ho (hnew m (List.mem_cons_of_mem _ hm))
  have hne : m.position ≠ n.position := by
    rw [List.map_cons, List.nodup_cons] at hd
    intro he
    exact hd.1 (he ▸ List.mem_map_of_mem hm)
  rw [uses_of_exec_recorded hs, List.map_append, List.mem_append, not_or]
  exact ⟨hq, by simp [Use.place, hne]⟩

theorem Single.remember {p : Progress (Recorded σ)} {stack : List Keys} {keys : Keys} (h : Single p)
    (hstack : p.stack = stack ++ [keys]) (v : Value) : Single (p.pop.remember keys v) where
  nodup := h.nodup
  owners := by
    intro u hu
    by_cases hk : keys = u.owner
    · exact .inr ⟨v, by simp [hk]⟩
    · rw [Progress.remember_memo, Assoc.find?_put_ne hk]
      refine (h.owners u hu).imp_left fun hmem => ?_
      have hne : u.owner ≠ keys := Ne.symm hk
      simpa [hstack, hne] using hmem

theorem nodup_map_position (s : Scope) (keys : Keys) (v : Value) :
    ((s.needs keys v).map Need.position).Nodup := by
  have hrange : (s.needs keys v).map Need.position = List.range (s.needs keys v).length := by
    refine List.ext_getElem (by simp) fun i _ _ => ?_
    cases v <;> simp [needs]
  rw [hrange]
  exact List.nodup_range

theorem Single.met {p q : Progress (Recorded σ)} {owner : Keys} {n : Need}
    {needs : List Need} {v : Value}
    {outcome : Except Error Value} {world : Recorded σ} (h : Single q)
    (hn : Visits s (recorded settle) n.keys p (.ok v) q)
    (hs : Run.exec (recorded settle owner n v) q.world = (outcome, world)) (ho : owner ∈ p.stack)
    (hnew : ∀ m ∈ n :: needs, (owner, m.position) ∉ p.world.uses.map Use.place) :
    Single { q with world } :=
  h.use hs (hn.stack_eq.symm ▸ ho) (hn.notMem_places ho (hnew n (List.mem_cons_self ..)))

mutual

/-- A call records no use twice, whether it succeeds or fails. -/
theorem Visits.single {keys : Keys} {p q : Progress (Recorded σ)} {r : Except Error Value}
    (h : Visits s (recorded settle) keys p r q) (hp : Single p) :
    (q.world.uses.map Use.place).Nodup ∧ ∀ v, r = .ok v → Single q := by
  match h with
  | .circle _ | .missing .. => exact ⟨hp.nodup, nofun⟩
  | .done .. => exact ⟨hp.nodup, fun _ _ => hp⟩
  | .failed hs hm _ hg =>
    exact ⟨(hg.single (hp.push keys) (by simp) (nodup_map_position ..)
      fun n _ => hp.notMem_places hs hm n.position).1, nofun⟩
  | .built hs hm _ hg =>
    have hq := (hg.single (hp.push keys) (by simp) (nodup_map_position ..)
      fun n _ => hp.notMem_places hs hm n.position).2 _ rfl
    have hr := hq.remember hg.stack_eq
    exact ⟨(hr _).nodup, fun _ _ => hr _⟩

theorem Gathers.single {owner : Keys} {needs : List Need} {p q : Progress (Recorded σ)}
    {r : Except Error (List Value)} (h : Gathers s (recorded settle) owner needs p r q)
    (hp : Single p) (ho : owner ∈ p.stack) (hd : (needs.map Need.position).Nodup)
    (hnew : ∀ n ∈ needs, (owner, n.position) ∉ p.world.uses.map Use.place) :
    (q.world.uses.map Use.place).Nodup ∧ ∀ parts, r = .ok parts → Single q := by
  match h with
  | .nil => exact ⟨hp.nodup, fun _ _ => hp⟩
  | .unresolved hn => exact ⟨(hn.single hp).1, nofun⟩
  | .unsettled hn hs => exact ⟨(((hn.single hp).2 _ rfl).met hn hs ho hnew).nodup, nofun⟩
  | .stopped hn hs hg =>
    have hq := ((hn.single hp).2 _ rfl).met hn hs ho hnew
    have hrest := hg.single hq (hn.stack_eq.symm ▸ ho) (List.nodup_cons.mp hd).2
      (notMem_places_of_use hn hs ho hd hnew)
    exact ⟨hrest.1, nofun⟩
  | .cons hn hs hg =>
    have hq := ((hn.single hp).2 _ rfl).met hn hs ho hnew
    have hrest := hg.single hq (hn.stack_eq.symm ▸ ho) (List.nodup_cons.mp hd).2
      (notMem_places_of_use hn hs ho hd hnew)
    exact ⟨hrest.1, fun _ _ => hrest.2 _ rfl⟩

end

theorem Tidy.unrecorded {p : Progress σ} (h : s.Tidy p) : s.Tidy p.unrecorded :=
  ⟨h.nodup, h.apart, h.once, h.there, h.closed⟩

mutual

/-- Every use is of the value that is remembered for its target. -/
theorem Visits.targets {keys : Keys} {p q : Progress (Recorded σ)} {r : Except Error Value}
    (h : Visits s (recorded settle) keys p r q) (ht : s.Tidy p)
    (hp : ∀ u ∈ p.world.uses, Assoc.find? u.need.keys p.memo = some u.target) :
    ∀ u ∈ q.world.uses, Assoc.find? u.need.keys q.memo = some u.target := by
  match h with
  | .circle _ | .done .. | .missing .. => exact hp
  | .failed hs hm _ hg => exact hg.targets (ht.push hs hm) hp
  | .built (q := q) hs hm _ hg =>
    have ht' := ht.push hs hm
    have hdone : Assoc.find? keys q.pop.memo = none :=
      (hg.tidy ht').apart keys (by simp [hg.stack_eq])
    intro u hu
    exact (Progress.Grows.refl q.pop).remember hdone _ _ _ (hg.targets ht' hp u hu)

theorem Gathers.targets {owner : Keys} {needs : List Need} {p q : Progress (Recorded σ)}
    {r : Except Error (List Value)} (h : Gathers s (recorded settle) owner needs p r q)
    (ht : s.Tidy p)
    (hp : ∀ u ∈ p.world.uses, Assoc.find? u.need.keys p.memo = some u.target) :
    ∀ u ∈ q.world.uses, Assoc.find? u.need.keys q.memo = some u.target := by
  match h with
  | .nil => exact hp
  | .unresolved hn => exact hn.targets ht hp
  | .unsettled hn hs =>
    rw [uses_of_exec_recorded hs]
    exact List.forall_mem_append.mpr
      ⟨hn.targets ht hp, List.forall_mem_singleton.mpr hn.find?_eq⟩
  | .stopped hn hs hg | .cons hn hs hg =>
    refine hg.targets ((hn.tidy ht).world _) ?_
    rw [uses_of_exec_recorded hs]
    exact List.forall_mem_append.mpr
      ⟨hn.targets ht hp, List.forall_mem_singleton.mpr hn.find?_eq⟩

end

-- A visit adds what its gathering adds, a gathering what its visits do: neither stands alone.
mutual

theorem Visits.uses_prefix {keys : Keys} {p q : Progress (Recorded σ)} {r : Except Error Value}
    (h : Visits s (recorded settle) keys p r q) : p.world.uses <+: q.world.uses := by
  match h with
  | .circle _ | .done .. | .missing .. => exact List.prefix_refl _
  | .failed _ _ _ hg | .built _ _ _ hg => exact hg.uses_prefix

theorem Gathers.uses_prefix {owner : Keys} {needs : List Need} {p q : Progress (Recorded σ)}
    {r : Except Error (List Value)} (h : Gathers s (recorded settle) owner needs p r q) :
    p.world.uses <+: q.world.uses := by
  match h with
  | .nil => exact List.prefix_refl _
  | .unresolved hn => exact hn.uses_prefix
  | .unsettled hn hs =>
    rw [uses_of_exec_recorded hs]
    exact hn.uses_prefix.trans (List.prefix_append ..)
  | .stopped hn hs hg | .cons hn hs hg =>
    have hg := hg.uses_prefix
    rw [uses_of_exec_recorded hs] at hg
    exact (hn.uses_prefix.trans (List.prefix_append ..)).trans hg

end

mutual

theorem Visits.forall_uses {P : Use → Prop}
    (hP : ∀ owner n v world, P ⟨owner, n, v, (Run.exec (settle owner n v) world).1⟩)
    {keys : Keys} {p q : Progress (Recorded σ)} {r : Except Error Value}
    (h : Visits s (recorded settle) keys p r q) (hp : ∀ u ∈ p.world.uses, P u) :
    ∀ u ∈ q.world.uses, P u := by
  match h with
  | .circle _ | .done .. | .missing .. => exact hp
  | .failed _ _ _ hg | .built _ _ _ hg => exact hg.forall_uses hP hp

theorem Gathers.forall_uses {P : Use → Prop}
    (hP : ∀ owner n v world, P ⟨owner, n, v, (Run.exec (settle owner n v) world).1⟩)
    {owner : Keys} {needs : List Need} {p q : Progress (Recorded σ)}
    {r : Except Error (List Value)} (h : Gathers s (recorded settle) owner needs p r q)
    (hp : ∀ u ∈ p.world.uses, P u) : ∀ u ∈ q.world.uses, P u := by
  match h with
  | .nil => exact hp
  | .unresolved hn => exact hn.forall_uses hP hp
  | .unsettled (n := n) (q := q) (v := v) hn hs =>
    have hu := hP owner n v q.world.world
    rw [outcome_of_exec_recorded hs] at hu
    rw [uses_of_exec_recorded hs]
    exact List.forall_mem_append.mpr ⟨hn.forall_uses hP hp, List.forall_mem_singleton.mpr hu⟩
  | .stopped (n := n) (q := q) (v := v) hn hs hg | .cons (n := n) (q := q) (v := v) hn hs hg =>
    have hu := hP owner n v q.world.world
    rw [outcome_of_exec_recorded hs] at hu
    refine hg.forall_uses hP ?_
    rw [uses_of_exec_recorded hs]
    exact List.forall_mem_append.mpr ⟨hn.forall_uses hP hp, List.forall_mem_singleton.mpr hu⟩

end

/-- Uses by one owner that meet needs, with what they give for them. -/
structure Meet (owner : Keys) (needs : List Need) (parts : List Value) (us : List Use) : Prop where
  owner : ∀ u ∈ us, u.owner = owner
  needs : us.map Use.need = needs
  parts : us.map Use.outcome = parts.map .ok

theorem Meet.cons {owner : Keys} {needs : List Need} {parts : List Value} {us : List Use} {u : Use}
    {w : Value} (h : Meet owner needs parts us) (ho : u.owner = owner) (hu : u.outcome = .ok w) :
    Meet owner (u.need :: needs) (w :: parts) (u :: us) where
  owner := List.forall_mem_cons.mpr ⟨ho, h.owner⟩
  needs := by rw [List.map_cons, h.needs]
  parts := by rw [List.map_cons, List.map_cons, h.parts, hu]

/-- A value is put together from uses, one for each need of the node. -/
def MadeFrom (s : Scope) (uses : List Use) (keys : Keys) (w : Value) : Prop :=
  ∃ v parts us, s.document.root.getIn keys = .ok v ∧ us ⊆ uses ∧
    Meet keys (s.needs keys v) parts us ∧ w = assemble parts v

theorem MadeFrom.mono {us us' : List Use} {keys : Keys} {w : Value} (h : s.MadeFrom us keys w)
    (hsub : us ⊆ us') : s.MadeFrom us' keys w := by
  obtain ⟨v, parts, us₀, hv, hus, hm, rfl⟩ := h
  exact ⟨v, parts, us₀, hv, List.Subset.trans hus hsub, hm, rfl⟩

/-- The uses before a need is met are among those in the end, and so is the use for the need. -/
theorem Gathers.uses_subset {owner : Keys} {n : Need} {needs : List Need}
    {q q' : Progress (Recorded σ)}
    {v : Value} {outcome : Except Error Value} {world : Recorded σ} {r : Except Error (List Value)}
    (hg : Gathers s (recorded settle) owner needs { q with world } r q')
    (hs : Run.exec (recorded settle owner n v) q.world = (outcome, world)) :
    q.world.uses ⊆ q'.world.uses ∧ ⟨owner, n, v, outcome⟩ ∈ q'.world.uses := by
  have hsub := hg.uses_prefix.subset
  rw [uses_of_exec_recorded hs] at hsub
  exact ⟨fun u hu => hsub (List.mem_append_left _ hu),
    hsub (List.mem_append_right _ (List.mem_singleton_self _))⟩

theorem Gathers.exists_meet {owner : Keys} {needs : List Need} {p q : Progress (Recorded σ)}
    {parts : List Value} (h : Gathers s (recorded settle) owner needs p (.ok parts) q) :
    ∃ us, us ⊆ q.world.uses ∧ Meet owner needs parts us := by
  induction needs generalizing p parts with
  | nil =>
    cases h
    exact ⟨[], List.nil_subset _, List.forall_mem_nil _, rfl, rfl⟩
  | cons n needs ih =>
    cases h with
    | @cons _ _ _ _ _ _ v w _ _ hn hs hg =>
      obtain ⟨us, hus, hmeet⟩ := ih hg
      have hu := (hg.uses_subset hs).2
      exact ⟨⟨owner, n, v, .ok w⟩ :: us, List.cons_subset.mpr ⟨hu, hus⟩,
        hmeet.cons (u := ⟨owner, n, v, .ok w⟩) rfl rfl⟩

mutual

theorem Visits.madeFrom {keys : Keys} {p q : Progress (Recorded σ)} {r : Except Error Value}
    (h : Visits s (recorded settle) keys p r q) :
    ∀ k w, Assoc.find? k q.memo = some w →
      Assoc.find? k p.memo = some w ∨ s.MadeFrom q.world.uses k w := by
  match h with
  | .circle _ | .done .. | .missing .. => exact fun _ _ hw => .inl hw
  | .failed _ _ _ hg => exact hg.madeFrom
  | .built hs hm hv hg =>
    intro k w hw
    rw [Progress.remember_memo] at hw
    by_cases hk : keys = k
    · subst hk
      rw [Assoc.find?_put_self, Option.some.injEq] at hw
      obtain ⟨us, hus, hmeet⟩ := hg.exists_meet
      exact .inr ⟨_, _, us, hv, hus, hmeet, hw.symm⟩
    · rw [Assoc.find?_put_ne hk] at hw
      exact hg.madeFrom k w hw

theorem Gathers.madeFrom {owner : Keys} {needs : List Need} {p q : Progress (Recorded σ)}
    {r : Except Error (List Value)} (h : Gathers s (recorded settle) owner needs p r q) :
    ∀ k w, Assoc.find? k q.memo = some w →
      Assoc.find? k p.memo = some w ∨ s.MadeFrom q.world.uses k w := by
  match h with
  | .nil => exact fun _ _ hw => .inl hw
  | .unresolved hn => exact hn.madeFrom
  | .unsettled hn hs =>
    refine fun k w hw => (hn.madeFrom k w hw).imp_right fun hmade => hmade.mono ?_
    rw [uses_of_exec_recorded hs]
    exact List.subset_append_left ..
  | .stopped hn hs hg | .cons hn hs hg =>
    intro k w hw
    rcases hg.madeFrom k w hw with hw | hmade
    · exact (hn.madeFrom k w hw).imp_right fun hmade => hmade.mono (hg.uses_subset hs).1
    · exact .inr hmade

end

mutual

/-- Uses go well up to the end of a call, or the last one fails and its error is that of the
call. -/
theorem Visits.unfailing {keys : Keys} {p q : Progress (Recorded σ)} {r : Except Error Value}
    (h : Visits s (recorded settle) keys p r q) (hp : Unfailing p.world.uses) :
    Unfailing q.world.uses ∨ ∃ e, r = .error e ∧ FailedLast q.world.uses e := by
  match h with
  | .circle _ | .done .. | .missing .. => exact .inl hp
  | .failed _ _ _ hg =>
    refine (hg.unfailing hp).imp_right ?_
    rintro ⟨e, he, hq⟩
    cases he
    exact ⟨_, rfl, hq⟩
  | .built _ _ _ hg =>
    refine (hg.unfailing hp).imp_right ?_
    rintro ⟨e, he, -⟩
    cases he

theorem Gathers.unfailing {owner : Keys} {needs : List Need} {p q : Progress (Recorded σ)}
    {r : Except Error (List Value)} (h : Gathers s (recorded settle) owner needs p r q)
    (hp : Unfailing p.world.uses) :
    Unfailing q.world.uses ∨ ∃ e, r = .error e ∧ FailedLast q.world.uses e := by
  match h with
  | .nil => exact .inl hp
  | .unresolved hn =>
    refine (hn.unfailing hp).imp_right ?_
    rintro ⟨e, he, hq⟩
    cases he
    exact ⟨_, rfl, hq⟩
  | .unsettled hn hs =>
    have hq := (hn.unfailing hp).resolve_right (by rintro ⟨e, he, -⟩; cases he)
    exact .inr ⟨_, rfl, _, _, uses_of_exec_recorded hs, hq, rfl⟩
  | .stopped hn hs hg =>
    have hq := (hn.unfailing hp).resolve_right (by rintro ⟨e, he, -⟩; cases he)
    exact hg.unfailing (uses_of_exec_recorded hs ▸ hq.concat rfl)
  | .cons hn hs hg =>
    have hq := (hn.unfailing hp).resolve_right (by rintro ⟨e, he, -⟩; cases he)
    refine (hg.unfailing (uses_of_exec_recorded hs ▸ hq.concat rfl)).imp_right ?_
    rintro ⟨e, he, -⟩
    cases he

end

end Scope
end Manifest
