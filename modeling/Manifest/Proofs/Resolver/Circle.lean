import Manifest.Proofs.Resolver.Memory

/-! When resolution succeeds: when all that is reached is there, in no circle, and every query on
the way is answered. A circle that is reported is a walk along references that comes back to
itself. -/
namespace Manifest

namespace Value

theorem exists_miss_of_getIn {v : Value} {keys : Keys} {e : Error} (h : v.getIn keys = .error e) :
    ∃ m : Miss, e = m.error keys := by
  unfold getIn at h
  cases hw : v.walk keys with
  | ok w => rw [hw] at h; cases h
  | error m =>
    rw [hw] at h
    cases h
    exact ⟨m, rfl⟩

theorem kind_of_getIn {v : Value} {keys : Keys} {e : Error} (h : v.getIn keys = .error e) :
    e.kind = .pathNotFound := by
  obtain ⟨m, rfl⟩ := exists_miss_of_getIn h
  cases m <;> rfl

theorem path_of_getIn {v : Value} {keys : Keys} {e : Error} (h : v.getIn keys = .error e) :
    e.path = some (Path.dotted keys) := by
  obtain ⟨m, rfl⟩ := exists_miss_of_getIn h
  cases m <;> rfl

end Value

namespace Scope

variable {s : Scope} {answer : Value → String → Except Error Value} {stack : List Keys}
  {start keys keys' : Keys} {v w : Value} {e : Error}

/-- What a resolved node reaches is resolved with nothing in progress. -/
theorem exists_naive_of_reaches (h : s.naive answer stack keys = .ok w)
    (hr : s.Reaches keys keys') : ∃ v, s.naive answer [] keys' = .ok v := by
  induction hr using Relation.ReflTransGen.head_induction_on generalizing stack w with
  | refl => exact ⟨w, naive_eq_ok_of_reaches h (by simp)⟩
  | head he _ ih =>
    obtain ⟨v, hv⟩ := exists_naive_of_edge h he
    exact ih hv

theorem not_transGen_of_naive (h : s.naive answer stack keys = .ok w) :
    ¬ Relation.TransGen s.Edge keys keys := by
  intro hc
  obtain ⟨k, he, hr⟩ := Relation.TransGen.head'_iff.mp hc
  obtain ⟨v, hv⟩ := exists_naive_of_edge h he
  exact notMem_of_reaches hv hr (List.mem_append_right _ (List.mem_singleton_self _))

theorem exists_taken (keys : Keys) {n : Need}
    (h : ∀ q, n.query = some q → ∃ u, answer v q = .ok u) :
    ∃ u, taken answer keys n v = .ok u := by
  unfold taken
  cases hq : n.query with
  | none => exact ⟨v, rfl⟩
  | some q =>
    obtain ⟨u, hu⟩ := h q hq
    exact ⟨u, by simp [hu, Except.mapError]⟩

theorem exists_text_of_query {n : Need} {q : String} (hn : n ∈ s.needs keys v)
    (hq : n.query = some q) : ∃ text, v = .string text := by
  cases v with
  | string text => exact ⟨text, rfl⟩
  | _ =>
    obtain ⟨i, hi, rfl⟩ := List.mem_mapIdx.mp hn
    cases hq

/-- Queries in the texts that a start reaches are answered wherever their target is resolved. -/
def Answered (s : Scope) (answer : Value → String → Except Error Value) (start : Keys) : Prop :=
  ∀ keys text, s.Reaches start keys → s.document.root.getIn keys = .ok (.string text) →
    ∀ m ∈ Template.scan text, ∀ q, m.placeholder.query = some q →
      ∀ v, s.naive answer [] (s.keys m.placeholder.path) = .ok v → ∃ w, answer v q = .ok w

/-- A node is resolved if all that it reaches is there, in no circle, and its queries are
answered. -/
theorem exists_naive (hthere : ∀ k, s.Reaches start k → ∃ v, s.document.root.getIn k = .ok v)
    (hcircle : ∀ k, s.Reaches start k → ¬ Relation.TransGen s.Edge k k)
    (hquery : s.Answered answer start) (hr : s.Reaches start keys)
    (hstack : ∀ k ∈ stack, Relation.TransGen s.Edge k keys) :
    ∃ w, s.naive answer stack keys = .ok w := by
  induction stack, keys using naive.induct s with
  | case1 stack keys hs => exact absurd (hstack keys hs) (hcircle keys hr)
  | case2 stack keys hs e he =>
    obtain ⟨v, hv⟩ := hthere keys hr
    rw [he] at hv; cases hv
  | case3 stack keys hs v hv ih =>
    have hmet : ∀ n ∈ s.needs keys v, ∃ u, s.met answer (stack ++ [keys]) keys n = .ok u := by
      intro n hn
      have he : s.Edge keys n.keys := .of_need hv hn
      have hstack' : ∀ k ∈ stack ++ [keys], Relation.TransGen s.Edge k n.keys :=
        forall_mem_concat (fun k hk => (hstack k hk).tail he) (.single he)
      obtain ⟨x, hx⟩ := ih n hn (hr.tail he) hstack'
      have hquery : ∀ q, n.query = some q → ∃ u, answer x q = .ok u := by
        intro q hq
        obtain ⟨text, rfl⟩ := exists_text_of_query hn hq
        obtain ⟨m, hm, hk, hmq⟩ := exists_span_of_need hn
        refine hquery keys text hr hv m hm q (hmq.trans hq) x ?_
        rw [hk]
        exact naive_eq_ok_of_reaches hx (by simp)
      obtain ⟨u, hu⟩ := exists_taken keys hquery
      exact ⟨u, met_eq_ok_iff.mpr ⟨x, hx, hu⟩⟩
    obtain ⟨parts, hp⟩ := exists_mapM_of_forall hmet
    exact ⟨_, naive_of_met hs hv hp⟩

/-- Resolution succeeds exactly on what is there, in no circle, and has its queries answered. -/
theorem exists_naive_iff :
    (∃ v, s.naive answer [] start = .ok v) ↔
      (∀ k, s.Reaches start k → ∃ v, s.document.root.getIn k = .ok v) ∧
      (∀ k, s.Reaches start k → ¬ Relation.TransGen s.Edge k k) ∧ s.Answered answer start := by
  constructor
  · rintro ⟨v, hv⟩
    refine ⟨fun k hk => ?_, fun k hk => ?_, ?_⟩
    · obtain ⟨w, hw⟩ := exists_naive_of_reaches hv hk
      obtain ⟨-, u, -, hu, -⟩ := naive_eq_ok_iff.mp hw
      exact ⟨u, hu⟩
    · obtain ⟨w, hw⟩ := exists_naive_of_reaches hv hk
      exact not_transGen_of_naive hw
    · intro k text hk htext m hm q hq x hx
      obtain ⟨w, hw⟩ := exists_naive_of_reaches hv hk
      obtain ⟨-, u, parts, hu, hp, -⟩ := naive_eq_ok_iff.mp hw
      cases Except.ok.inj (htext.symm.trans hu)
      obtain ⟨n, hn, hnk, hnq⟩ := exists_need_of_span (s := s) k hm
      obtain ⟨y, hy⟩ := exists_ok_of_mapM hp n hn
      obtain ⟨x', hx', ht⟩ := met_eq_ok_iff.mp hy
      have hx'' : s.naive answer [] n.keys = .ok x' := naive_eq_ok_of_reaches hx' (by simp)
      rw [hnk, hx] at hx''
      cases hx''
      unfold taken at ht
      rw [hnq.trans hq] at ht
      cases ha : answer x q with
      | ok z => exact ⟨z, rfl⟩
      | error e =>
        simp only [ha] at ht
        cases ht
  · rintro ⟨hthere, hcircle, hquery⟩
    exact exists_naive hthere hcircle hquery .refl (by simp)

/-- The walk that a circle is reported by. -/
structure Circular (s : Scope) (walk : List Keys) (last : Keys) : Prop where
  edges : walk.IsChain s.Edge
  nodup : walk.dropLast.Nodup
  getLast?_eq : walk.getLast? = some last
  mem : last ∈ walk.dropLast

theorem Circular.two_le_length {walk : List Keys} {last : Keys} (h : s.Circular walk last) :
    2 ≤ walk.length := by
  have hpos := List.length_pos_of_mem h.mem
  rw [List.length_dropLast] at hpos
  omega

/-- A circle is reported by the keys in progress, and how it goes on from there. -/
theorem exists_circular
    (hanswer : ∀ v q e, answer v q = .error e → ∀ c, e.kind ≠ .circularReference c)
    {chain : List String} (h : s.naive answer stack keys = .error e)
    (hkind : e.kind = .circularReference chain) (hwalk : (stack ++ [keys]).IsChain s.Edge)
    (hd : stack.Nodup) :
    ∃ walk last, stack ++ [keys] <+: walk ∧ s.Circular walk last ∧
      chain = walk.map Path.dotted ∧ e.path = some (Path.dotted last) := by
  induction stack, keys using naive.induct s with
  | case1 stack keys hs =>
    rw [naive_of_mem_stack hs] at h
    cases h
    cases hkind
    refine ⟨stack ++ [keys], keys, List.prefix_refl _, ⟨hwalk, ?_, ?_, ?_⟩, rfl, rfl⟩ <;>
      simp [hs, hd]
  | case2 stack keys hs e' he =>
    rw [naive_of_missing hs he] at h
    cases h
    rw [Value.kind_of_getIn he] at hkind
    cases hkind
  | case3 stack keys hs v hv ih =>
    rw [naive_of_found hs hv] at h
    cases hp : (s.needs keys v).mapM (s.met answer (stack ++ [keys]) keys) with
    | ok parts => rw [hp] at h; cases h
    | error e' =>
      rw [hp] at h
      cases h
      obtain ⟨n, hn, hm⟩ := exists_error_of_mapM hp
      cases hx : s.naive answer (stack ++ [keys]) n.keys with
      | error e' =>
        rw [met_of_error hx] at hm
        cases hm
        have hwalk' : (stack ++ [keys] ++ [n.keys]).IsChain s.Edge := by
          refine hwalk.append (.singleton _) ?_
          simpa using Edge.of_need hv hn
        obtain ⟨walk, last, hpre, hrest⟩ := ih n hn hx hwalk' (nodup_concat hd hs)
        exact ⟨walk, last, (List.prefix_append _ _).trans hpre, hrest⟩
      | ok x =>
        -- An error of a query keeps its kind when it is located.
        rw [met_of_ok hx] at hm
        unfold taken at hm
        cases hq : n.query with
        | none => simp only [hq] at hm; cases hm
        | some q =>
          cases ha : answer x q with
          | ok u => simp only [hq, ha] at hm; cases hm
          | error e' =>
            simp only [hq, ha] at hm
            cases hm
            exact absurd hkind (hanswer x q e' ha chain)

end Scope

namespace Resolver

variable {σ : Type} {r : Resolver σ} {answer : Value → String → Except Error Value}

theorem Answers.exec_node (h : r.Answers answer) (keys : Keys) (world : σ) :
    (Run.exec (r.node r.settle keys) { world }).1 = r.naive answer [] keys := by
  have hv := Scope.exec_node_eq_iff.mp (rfl : Run.exec (r.node r.settle keys) { world } = _)
  exact (hv.eq_naive h.exec_settle (r.tidy_start world) (by simp [Scope.Faithful])).1

/-- A resolver that has done nothing before resolves a path exactly when all keys that it reaches
are there, none of them is on a circle, and the queries in texts among them are answered on their
resolved targets; all that it reaches is resolved then. When it reports a circle, that is a walk
along references from the path's keys, in which no keys come twice but the last, at which the error
is. -/
theorem resolveOnce_ok_iff (h : r.Answers answer)
    (hanswer : ∀ v q e, answer v q = .error e → ∀ c, e.kind ≠ .circularReference c)
    (path : String) (world : σ) :
    ((∃ v, (Run.exec (r.resolveOnce path) world).1 = .ok v) ↔
      (∀ k, r.Reaches (r.keys path) k → ∃ v, r.document.root.getIn k = .ok v) ∧
      (∀ k, r.Reaches (r.keys path) k → ¬ Relation.TransGen r.Edge k k) ∧
      ∀ k text, r.Reaches (r.keys path) k → r.document.root.getIn k = .ok (.string text) →
        ∀ m ∈ Template.scan text, ∀ q, m.placeholder.query = some q → ∀ v,
          (Run.exec (r.resolveOnce m.placeholder.path) world).1 = .ok v → ∃ w, answer v q = .ok w) ∧
    ((∃ v, (Run.exec (r.resolveOnce path) world).1 = .ok v) →
      ∀ k, r.Reaches (r.keys path) k →
        ∃ v, (Run.exec (r.node r.settle k) { world }).1 = .ok v) ∧
    ∀ e chain, (Run.exec (r.resolveOnce path) world).1 = .error e →
      e.kind = .circularReference chain →
      ∃ (walk : List Keys) (last : Keys), walk.head? = some (r.keys path) ∧ 2 ≤ walk.length ∧
        walk.IsChain r.Edge ∧ walk.dropLast.Nodup ∧ walk.getLast? = some last ∧
          last ∈ walk.dropLast ∧
        chain = walk.map Path.dotted ∧ e.path = some (Path.dotted last) := by
  simp only [h.exec_resolveOnce, h.exec_node]
  refine ⟨Scope.exists_naive_iff, ?_, ?_⟩
  · rintro ⟨v, hv⟩ k hk
    exact Scope.exists_naive_of_reaches hv hk
  · intro e chain he hkind
    obtain ⟨walk, last, hpre, hc, hchain, hpath⟩ :=
      Scope.exists_circular hanswer he hkind (.singleton _) .nil
    obtain ⟨rest, rfl⟩ := hpre
    exact ⟨_, last, rfl, hc.two_le_length, hc.edges, hc.nodup, hc.getLast?_eq, hc.mem,
      hchain, hpath⟩

theorem resolveOnce_ok_iff_counting :
    counting.Answers echo ∧
    (∀ v q e, echo v q = .error e → ∀ c, e.kind ≠ .circularReference c) ∧
    (∀ k, counting.Reaches ["title"] k → ¬ Relation.TransGen counting.Edge k k) ∧
    ∃ (walk : List Keys) (last : Keys), walk.head? = some ["left"] ∧ walk.IsChain counting.Edge ∧
      last ∈ walk.dropLast ∧ ["left", "right", "left"] = walk.map Path.dotted := by
  have h : counting.Answers echo := fun _ _ _ => rfl
  have hkind : ∀ v q e, echo v q = .error e → ∀ c, e.kind ≠ .circularReference c :=
    fun _ _ _ => echo_kind
  obtain ⟨hiff, -, -⟩ := resolveOnce_ok_iff h hkind "title" 0
  obtain ⟨-, -, hcircle⟩ := resolveOnce_ok_iff h hkind "left" 0
  have htitle : (Run.exec (counting.resolveOnce "title") 0).1 = .ok (.string "x x") := by
    cbv
  have hleft : (Run.exec (counting.resolveOnce "left") 0).1 =
      .error (.circularReference "left" ["left", "right", "left"]) := by
    cbv
  refine ⟨h, hkind, (hiff.mp ⟨_, htitle⟩).2.1, ?_⟩
  obtain ⟨walk, last, hhead, -, hedges, -, -, hmem, hchain, -⟩ := hcircle _ _ hleft rfl
  exact ⟨walk, last, hhead, hedges, hmem, hchain⟩

end Resolver
end Manifest
