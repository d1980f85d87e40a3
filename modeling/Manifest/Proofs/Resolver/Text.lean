import Manifest.Proofs.Placeholder.Gaps
import Manifest.Proofs.Resolver.Circle

/-! Texts and what stands in them. For queries whose results depend on nothing but value and query,
a text resolves to what its placeholders come to each on its own, put between the gaps; it fails as
the first of them that fails does. -/
namespace Manifest

variable {σ : Type}

namespace Error

/-- Errors that differ at most in where they are located, or in the circle that they tell of. -/
def Akin (e e' : Error) : Prop :=
  (e.kind = e'.kind ∧ e.cause = e'.cause ∧ e.help = e'.help) ∨
    ∃ chain chain', e.kind = .circularReference chain ∧ e'.kind = .circularReference chain'

theorem Akin.refl (e : Error) : e.Akin e := .inl ⟨rfl, rfl, rfl⟩

theorem akin_orAt (e : Error) (path : String) : (e.orAt path).Akin e := .inl ⟨rfl, rfl, rfl⟩

end Error

namespace Scope

variable {s : Scope} {answer : Value → String → Except Error Value} {stack : List Keys}
  {owner keys : Keys} {v w : Value} {e : Error} {n : Need} {before behind : List Need}
    {text : String}

theorem circle_akin (stack stack' : List Keys) (keys keys' : Keys) :
    (circle stack keys).Akin (circle stack' keys') := .inr ⟨_, _, rfl, rfl⟩

/-- A need is resolved in the course of its node just as it is with nothing in progress. -/
theorem naive_need_eq_ok_iff (hv : s.document.root.getIn owner = .ok v) (hn : n ∈ s.needs owner v) :
    s.naive answer [owner] n.keys = .ok w ↔ s.naive answer [] n.keys = .ok w := by
  refine ⟨fun h => naive_eq_ok_of_reaches h (by simp), fun h => naive_eq_ok_of_reaches h ?_⟩
  rintro k hk hmem
  obtain rfl := List.mem_singleton.mp hmem
  exact not_transGen_of_naive h (.tail' hk (.of_need hv hn))

theorem exists_akin_of_needs {stack' : List Keys} (hsub : stack' ⊆ stack) (hs : keys ∉ stack)
    (hv : s.document.root.getIn keys = .ok v)
    (hneeds : ∀ m ∈ s.needs keys v, ∀ e, s.naive answer (stack ++ [keys]) m.keys = .error e →
      ∃ e', s.naive answer (stack' ++ [keys]) m.keys = .error e' ∧ e.Akin e')
    (h : s.naive answer stack keys = .error e) :
    ∃ e', s.naive answer stack' keys = .error e' ∧ e.Akin e' := by
  have hsub' : stack' ++ [keys] ⊆ stack ++ [keys] :=
    List.append_subset.mpr ⟨List.subset_append_of_subset_left _ hsub, List.subset_append_right ..⟩
  rw [naive_of_found hs hv] at h
  cases hp : (s.needs keys v).mapM (s.met answer (stack ++ [keys]) keys) with
  | ok ws => rw [hp] at h; cases h
  | error e' =>
    rw [hp] at h
    cases h
    obtain ⟨before, m, behind, ws, hsplit, hws, hm⟩ := mapM_eq_error_iff.mp hp
    have hfail : ∃ e', s.met answer (stack' ++ [keys]) keys m = .error e' ∧ e.Akin e' := by
      cases hx : s.naive answer (stack ++ [keys]) m.keys with
      | error e' =>
        obtain ⟨e'', he, hakin⟩ := hneeds m (by rw [hsplit]; simp) e' hx
        rw [met_of_error hx] at hm
        cases hm
        exact ⟨e'', met_of_error he, hakin⟩
      | ok x =>
        rw [met_of_ok hx] at hm
        exact ⟨e, (met_of_ok (naive_eq_ok_of_subset hx hsub')).trans hm, .refl e⟩
    obtain ⟨e', he, hakin⟩ := hfail
    have hmap := mapM_eq_error_iff.mpr ⟨before, m, behind, ws, hsplit,
      mapM_eq_ok_of_forall hws fun _ _ _ hy => met_eq_ok_of_subset hy hsub', he⟩
    exact ⟨e', by rw [naive_of_found (fun hmem => hs (hsub hmem)) hv, hmap]; rfl, hakin⟩

/-- A node whose needs are met up to one that is in progress fails with a circle. -/
theorem naive_of_circular (hs : owner ∉ stack) (hv : s.document.root.getIn owner = .ok v)
    (hneeds : s.needs owner v = before ++ n :: behind) {parts : List Value}
    (hbefore : before.mapM (s.met answer [owner] owner) = .ok parts)
    (hstack : ∀ k ∈ stack, s.Reaches k owner) (hn : n.keys ∈ stack ++ [owner]) :
    s.naive answer stack owner = .error (circle (stack ++ [owner]) n.keys) := by
  have hbefore' : before.mapM (s.met answer (stack ++ [owner]) owner) = .ok parts := by
    refine mapM_eq_ok_of_forall hbefore fun m _ y hy => ?_
    obtain ⟨x, hx, ht⟩ := met_eq_ok_iff.mp hy
    refine met_eq_ok_iff.mpr ⟨x, naive_eq_ok_of_reaches hx fun k hk hmem => ?_, ht⟩
    -- What is in progress leads to the node, which a need that is met does not.
    have hback : s.Reaches k owner := forall_mem_concat hstack .refl k hmem
    exact notMem_of_reaches hx (hk.trans hback) (List.mem_singleton_self _)
  have hfail := mapM_eq_error_iff.mpr
    ⟨before, n, behind, parts, hneeds, hbefore', met_of_error (naive_of_mem_stack hn)⟩
  rw [naive_of_found hs hv, hfail]
  rfl

/-- A need whose way leads into a failure while its node is in progress does so too with nothing in
progress, once the needs before it are met: where the way comes to the node, it goes on to where it
began. The keys of `stack` are those on the way so far. -/
theorem exists_akin_of_naive (hv : s.document.root.getIn owner = .ok v)
    (hneeds : s.needs owner v = before ++ n :: behind) {parts : List Value}
    (hbefore : before.mapM (s.met answer [owner] owner) = .ok parts)
    (hstack : ∀ k ∈ stack, s.Reaches k keys) (hn : n.keys ∈ stack ++ [keys])
    (h : s.naive answer (owner :: stack) keys = .error e) :
    ∃ e', s.naive answer stack keys = .error e' ∧ e.Akin e' := by
  induction stack, keys using naive.induct s generalizing e with
  | case1 stack keys hs =>
    rw [naive_of_mem_stack (List.mem_cons_of_mem _ hs)] at h
    cases h
    exact ⟨_, naive_of_mem_stack hs, circle_akin ..⟩
  | case2 stack keys hs e' he =>
    have hne : keys ≠ owner := by
      rintro rfl
      cases he.symm.trans hv
    rw [naive_of_missing (by simp [hne, hs]) he] at h
    cases h
    exact ⟨_, naive_of_missing hs he, .refl _⟩
  | case3 stack keys hs u hu ih =>
    by_cases hk : keys = owner
    · subst hk
      rw [naive_of_mem_stack (List.mem_cons_self ..)] at h
      cases h
      exact ⟨_, naive_of_circular hs hv hneeds hbefore hstack hn, circle_akin ..⟩
    · have hnew : keys ∉ owner :: stack := by simp [hk, hs]
      refine exists_akin_of_needs (List.subset_cons_self ..) hnew hu (fun m hm e he => ?_) h
      have hstep : s.Edge keys m.keys := .of_need hu hm
      exact ih m hm (forall_mem_concat (fun k hk => (hstack k hk).tail hstep) (.single hstep))
        (List.mem_append_left _ hn) he

def own (s : Scope) (answer : Value → String → Except Error Value) (keys : Keys)
    (query : Option String) : Except Error Value := do
  let v ← s.naive answer [] keys
  match query with
  | none => return v
  | some q => answer v q

theorem own_eq_ok_iff (owner : Keys) :
    s.own answer n.keys n.query = .ok w ↔ s.met answer [] owner n = .ok w := by
  rw [met_eq_ok_iff]
  unfold own taken
  cases s.naive answer [] n.keys with
  | error e => simp [bind, Except.bind]
  | ok x =>
    cases n.query with
    | none => simp [bind, Except.bind, pure, Except.pure]
    | some q => cases h : answer x q <;> simp [bind, Except.bind, Except.mapError, h]

theorem met_eq_ok_iff_own (hv : s.document.root.getIn owner = .ok v) (hn : n ∈ s.needs owner v) :
    s.met answer [owner] owner n = .ok w ↔ s.own answer n.keys n.query = .ok w := by
  rw [own_eq_ok_iff owner, met_eq_ok_iff, met_eq_ok_iff]
  exact exists_congr fun x => and_congr_left' (naive_need_eq_ok_iff hv hn)

theorem exists_akin_of_own (hv : s.document.root.getIn owner = .ok v)
    (hneeds : s.needs owner v = before ++ n :: behind) {parts : List Value}
    (hbefore : before.mapM (s.met answer [owner] owner) = .ok parts)
    (h : s.own answer n.keys n.query = .error e) :
    ∃ e', s.met answer [owner] owner n = .error e' ∧ e'.Akin e := by
  have hn : n ∈ s.needs owner v := by rw [hneeds]; simp
  unfold own at h
  cases hx : s.naive answer [owner] n.keys with
  | error e' =>
    obtain ⟨e'', he, hakin⟩ := exists_akin_of_naive hv hneeds hbefore (by simp) (by simp) hx
    rw [he] at h
    cases h
    exact ⟨e', met_of_error hx, hakin⟩
  | ok x =>
    rw [(naive_need_eq_ok_iff hv hn).mp hx] at h
    cases hq : n.query with
    | none => rw [hq] at h; cases h
    | some q =>
      have ha : answer x q = .error e := by simpa only [hq, bind, Except.bind] using h
      refine ⟨e.orAt (Path.dotted owner), ?_, e.akin_orAt _⟩
      rw [met_of_ok hx]
      simp [taken, hq, ha, Except.mapError]

/-- The needs of a text are met with what its placeholders come to on their own. -/
theorem mapM_met_text (htext : s.document.root.getIn owner = .ok (.string text)) {ws : List Value} :
    (s.needs owner (.string text)).mapM (s.met answer [owner] owner) = .ok ws ↔
      List.Forall₂ (fun (m : Span) w =>
        s.own answer (s.keys m.placeholder.path) m.placeholder.query = .ok w)
          (Template.scan text) ws := by
  let f := fun n : Need => (n.keys, n.query)
  let g := fun m : Span => (s.keys m.placeholder.path, m.placeholder.query)
  let P := fun (k : Keys × Option String) w => s.own answer k.1 k.2 = .ok w
  have hown : (s.needs owner (.string text)).mapM (s.met answer [owner] owner) = .ok ws ↔
      (s.needs owner (.string text)).mapM (fun n => s.own answer n.keys n.query) = .ok ws :=
    ⟨fun h => mapM_eq_ok_of_forall h fun n hn _ => (met_eq_ok_iff_own htext hn).mp,
      fun h => mapM_eq_ok_of_forall h fun n hn _ => (met_eq_ok_iff_own htext hn).mpr⟩
  rw [hown, mapM_eq_ok_iff]
  calc List.Forall₂ (fun n w => P (f n) w) (s.needs owner (.string text)) ws
    _ ↔ List.Forall₂ P ((s.needs owner (.string text)).map f) ws := List.forall₂_map_left_iff.symm
    _ ↔ List.Forall₂ P ((Template.scan text).map g) ws := by rw [map_needs_string s owner text]
    _ ↔ List.Forall₂ (fun m w => P (g m) w) (Template.scan text) ws := List.forall₂_map_left_iff

/-- The first placeholder of a text that fails on its own stands for a need, and those before it for
needs that are met. -/
theorem exists_need_of_own (htext : s.document.root.getIn owner = .ok (.string text))
    {before behind : List Span} {m : Span} (hscan : Template.scan text = before ++ m :: behind)
    (hbefore : ∀ m' ∈ before, ∃ w,
      s.own answer (s.keys m'.placeholder.path) m'.placeholder.query = .ok w) :
    ∃ met n rest parts, s.needs owner (.string text) = met ++ n :: rest ∧
      met.mapM (s.met answer [owner] owner) = .ok parts ∧
      n.keys = s.keys m.placeholder.path ∧ n.query = m.placeholder.query := by
  have hneeds := map_needs_string s owner text
  rw [hscan, List.map_append, List.map_cons] at hneeds
  obtain ⟨met, others, hsplit, hmet, hothers⟩ := List.map_eq_append_iff.mp hneeds
  obtain ⟨n, rest, rfl, hn, -⟩ := List.map_eq_cons_iff.mp hothers
  obtain ⟨hkeys, hquery⟩ := Prod.mk.inj hn
  have hall : ∀ k ∈ met, ∃ w, s.met answer [owner] owner k = .ok w := by
    intro k hk
    have hmem := List.mem_map_of_mem (f := fun n : Need => (n.keys, n.query)) hk
    rw [hmet] at hmem
    obtain ⟨m', hm', he⟩ := List.mem_map.mp hmem
    obtain ⟨hkeys', hquery'⟩ := Prod.mk.inj he
    obtain ⟨w, hw⟩ := hbefore m' hm'
    rw [hkeys', hquery'] at hw
    exact ⟨w, (met_eq_ok_iff_own htext (by rw [hsplit]; exact List.mem_append_left _ hk)).mpr hw⟩
  obtain ⟨parts, hparts⟩ := exists_mapM_of_forall hall
  exact ⟨met, n, rest, parts, hsplit, hparts, hkeys, hquery⟩

/-- A text resolves to what its placeholders come to on their own, between the gaps. -/
theorem naive_text_eq_ok_iff (htext : s.document.root.getIn owner = .ok (.string text)) :
    s.naive answer [] owner = .ok w ↔
      ∃ ws, List.Forall₂ (fun (m : Span) w =>
          s.own answer (s.keys m.placeholder.path) m.placeholder.query = .ok w)
            (Template.scan text) ws ∧
        w = .string (String.ofList
          (Template.weave (Template.gaps (Template.pieces text.toList))
            (ws.map Value.render))) := by
  have hassemble : ∀ ws : List Value, (Template.scan text).length = ws.length →
      assemble ws (.string text) = .string (String.ofList
        (Template.weave (Template.gaps (Template.pieces text.toList)) (ws.map Value.render))) := by
    intro ws hws
    have hlen : (ws.map Value.render).length =
        (Template.placeholders (Template.pieces text.toList)).length := by
      rw [List.length_map, ← hws, ← Template.spansFrom_placeholder 0, List.length_map]
      rfl
    rw [assemble, Template.fill_eq_weave hlen]
  rw [naive_of_found List.not_mem_nil htext, List.nil_append]
  constructor
  · intro h
    cases hp : (s.needs owner (.string text)).mapM (s.met answer [owner] owner) with
    | error e => rw [hp] at h; cases h
    | ok ws =>
      rw [hp] at h
      cases h
      have hws := (mapM_met_text htext).mp hp
      exact ⟨ws, hws, hassemble ws hws.length_eq⟩
  · rintro ⟨ws, hws, rfl⟩
    rw [(mapM_met_text htext).mpr hws, ← hassemble ws hws.length_eq]
    rfl

theorem exists_akin_of_text (htext : s.document.root.getIn owner = .ok (.string text))
    {before behind : List Span} {m : Span} (hscan : Template.scan text = before ++ m :: behind)
    (hbefore : ∀ m' ∈ before, ∃ w,
      s.own answer (s.keys m'.placeholder.path) m'.placeholder.query = .ok w)
    (h : s.own answer (s.keys m.placeholder.path) m.placeholder.query = .error e) :
    ∃ e', s.naive answer [] owner = .error e' ∧ e'.Akin e := by
  obtain ⟨met, n, rest, parts, hneeds, hmet, hkeys, hquery⟩ :=
    exists_need_of_own htext hscan hbefore
  rw [← hkeys, ← hquery] at h
  obtain ⟨e', he, hakin⟩ := exists_akin_of_own htext hneeds hmet h
  have hfail := mapM_eq_error_iff.mpr ⟨met, n, rest, parts, hneeds, hmet, he⟩
  exact ⟨e', by rw [naive_of_found List.not_mem_nil htext, List.nil_append, hfail]; rfl, hakin⟩

end Scope

namespace Resolver

variable {r : Resolver σ} {answer : Value → String → Except Error Value} {keys : Keys}
  {text : String}

/-- What a placeholder comes to by itself: its target as a resolver resolves it that has done
nothing before, and the result of the query on it. -/
def alone (r : Resolver σ) (p : Placeholder) : Run σ Value := do
  let v ← r.resolveOnce p.path
  match p.query with
  | none => return v
  | some q => r.evaluate v q

theorem Answers.exec_alone (h : r.Answers answer) (p : Placeholder) (world : σ) :
    (Run.exec (r.alone p) world).1 = r.own answer (r.keys p.path) p.query := by
  unfold alone Scope.own
  rw [← h.exec_resolveOnce p.path world, Run.exec_bind]
  cases Run.exec (r.resolveOnce p.path) world with
  | mk result world' =>
    cases result with
    | error e => rfl
    | ok v =>
      cases p.query with
      | none => rfl
      | some q => exact h v q world'

/-- For queries whose results depend on nothing but value and query: a text is cut at its
placeholders in one way, and with nothing done before it resolves just if each placeholder on its
own comes to a value. Then it is a text, in which these values as they are rendered stand between
the gaps. If a placeholder fails on its own, and all before it do not, then the text fails, with an
error that differs from that one at most in its location or, where both tell of a circle, in the
circle. -/
theorem resolve_text (h : r.Answers answer)
    (htext : r.document.root.getIn keys = .ok (.string text))
    (world world' : σ) :
    let result := (Run.exec (r.node r.settle keys) { world }).1
    let own := fun m : Span => (Run.exec (r.alone m.placeholder) world').1
    ∃ gaps, (∀ gaps', Template.Cut 0 text.toList (Template.scan text) gaps' ↔ gaps' = gaps) ∧
      (∀ v, result = .ok v ↔
        ∃ ws, List.Forall₂ (fun m w => own m = .ok w) (Template.scan text) ws ∧
          v = .string (String.ofList (Template.weave gaps (ws.map Value.render)))) ∧
      ∀ before m behind e, Template.scan text = before ++ m :: behind →
        (∀ m' ∈ before, ∃ w, own m' = .ok w) → own m = .error e →
        ∃ e', result = .error e' ∧ e'.Akin e := by
  intro result own
  have hown : ∀ m, own m = r.own answer (r.keys m.placeholder.path) m.placeholder.query := fun m =>
    h.exec_alone m.placeholder world'
  have hresult : result = r.naive answer [] keys := h.exec_node keys world
  simp only [hown, hresult]
  exact ⟨_, Template.cut_scan_iff text, fun v => Scope.naive_text_eq_ok_iff htext,
    fun _ _ _ _ => Scope.exists_akin_of_text htext⟩

/-- A text with adjacent placeholders in front of what only looks like one when they are replaced,
and two texts that refer to each other, one of them behind a reference that can be resolved. -/
def greeting : Resolver Unit where
  document := .ofValue <| .mapping
    [("name", .string "$"), ("hello", .string "${name}${name~@~}{name}"),
      ("ping", .string "${name} ${pong}"), ("pong", .string "${ping}")]
  evaluate v query := Run.ofExcept (echo v query)

/-- The substituted text is not scanned again; and each of two texts in a circle tells of it from
where it began. -/
theorem resolve_text_greeting :
    greeting.Answers echo ∧
    greeting.document.root.getIn ["hello"] = .ok (.string "${name}${name~@~}{name}") ∧
    greeting.document.root.getIn ["ping"] = .ok (.string "${name} ${pong}") ∧
    (Run.exec (greeting.node greeting.settle ["hello"]) { world := () }).1 =
      .ok (.string "$${name}") ∧
    ∃ e, (Run.exec (greeting.node greeting.settle ["ping"]) { world := () }).1 = .error e ∧
      e.Akin (.circularReference "pong" ["pong", "ping", "pong"]) := by
  have h : greeting.Answers echo := fun _ _ _ => rfl
  have hhello : greeting.document.root.getIn ["hello"] =
    .ok (.string "${name}${name~@~}{name}") := by
    cbv
  have hping : greeting.document.root.getIn ["ping"] = .ok (.string "${name} ${pong}") := by cbv
  refine ⟨h, hhello, hping, ?_, ?_⟩
  · obtain ⟨gaps, hgaps, hok, -⟩ := resolve_text h hhello () ()
    obtain rfl := (hgaps [[], [], "{name}".toList]).mp ((Template.cut_scan_iff _ _).mpr (by cbv))
    have hscan : Template.scan "${name}${name~@~}{name}" =
        [⟨0, 7, ⟨"name", none⟩⟩, ⟨7, 17, ⟨"name", some "@"⟩⟩] := by cbv
    refine (hok _).mpr ⟨[.string "$", .string "$"], ?_, rfl⟩
    rw [hscan]
    exact .cons (by cbv) (.cons (by cbv) .nil)
  · obtain ⟨-, -, -, hfail⟩ := resolve_text h hping () ()
    obtain ⟨e, he, hakin⟩ := hfail [⟨0, 7, ⟨"name", none⟩⟩] ⟨8, 15, ⟨"pong", none⟩⟩ []
      (.circularReference "pong" ["pong", "ping", "pong"]) (by cbv)
      (fun m hm => ⟨.string "$", by rw [List.mem_singleton.mp hm]; cbv⟩) (by cbv)
    exact ⟨e, he, hakin⟩

end Resolver
end Manifest
