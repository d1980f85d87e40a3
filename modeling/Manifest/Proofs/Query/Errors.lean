import Manifest.Proofs.Query.Trace
import Mathlib

/-! What queries fail with. An error that a registered function raises is the error of the query.
Apart from these, a query that compiles fails in ways of searches, and as if it were malformed only
where a function calculates a double that is not finite. -/
namespace Manifest

variable {σ : Type}

def Error.IsQueryParse (e : Error) : Prop := ∃ query, e.kind = .queryParse query

theorem Signature.exists_cause_of_check {s : Signature} {name : String}
    {args : List Value} {e : Error}
    (h : s.check name args = .error e) : ∃ cause, e = .arityOrType name cause := by
  unfold check at h
  split at h
  · cases h; exact ⟨_, rfl⟩
  split at h
  · cases h; exact ⟨_, rfl⟩
  · cases h

namespace Query

variable {registry : Registry σ} {v : Value} {query : String} {e : Expr} {world : σ}

structure Compiles (query : String) (e : Expr) : Prop where
  trim_ne : Text.trim query ≠ ""
  ofText : Expr.ofText? query = some e

theorem Compiles.evaluate_eq (h : Compiles query e) (registry : Registry σ) (v : Value) :
    evaluate registry v query = Search.toRun query (search registry e v) := by
  rw [evaluate, if_neg h.trim_ne, h.ofText]

/-- A query that does not compile fails on all values alike, without any effect. -/
theorem exists_evaluate_eq_throw (h : ∀ e, ¬Compiles query e) :
    ∃ error : Error, error.IsQueryParse ∧
      ∀ (registry : Registry σ) v, evaluate registry v query = throw error := by
  by_cases hblank : Text.trim query = ""
  · refine ⟨.queryParse query "query is empty", ⟨query, rfl⟩, fun registry v => ?_⟩
    rw [evaluate, if_pos hblank]
  · have hread : Expr.ofText? query = none :=
      Option.eq_none_iff_forall_ne_some.mpr fun e he => h e ⟨hblank, he⟩
    refine ⟨{ Error.queryParse query "" with cause := none }, ⟨query, rfl⟩, fun registry v => ?_⟩
    rw [evaluate, if_neg hblank, hread]

/-- The calls of a search explain the state that an evaluation leaves. A call that stops the search
decides the error; if none does, the error is that of a failure which tells what is wrong. -/
theorem Compiles.exists_explains (h : Compiles query e) (registry : Registry σ) (v : Value)
    (world : σ) :
    ∃ r slot stop,
      Run.exec (tracedSearch registry e v) ⟨{ world }, none⟩ =
        (r, ⟨⟨(Run.exec (evaluate registry v query) world).2, calls registry e v world⟩, slot⟩) ∧
      Run.exec (search registry e v) { world } =
        (r, ⟨(Run.exec (evaluate registry v query) world).2, slot⟩) ∧
      Explains registry world (calls registry e v world) stop
        (Run.exec (evaluate registry v query) world).2 ∧
      Outcome stop r slot ∧
      (Run.exec (evaluate registry v query) world).1 =
        r.mapError fun failure => slot.getD (failure.error query) := by
  obtain ⟨r, world', slot, stop, hx, hy, hcs, hout⟩ := explains_search registry e v world
  have hexec : Run.exec (evaluate registry v query) world =
      (r.mapError fun failure => slot.getD (failure.error query), world') := by
    rw [h.evaluate_eq, Search.exec_toRun, hy]
    cases r <;> rfl
  rw [hexec]
  exact ⟨r, slot, stop, hx, hy, hcs, hout, rfl⟩

namespace Explains

variable {α : Type} {world' : σ} {cs before behind : List (Call σ)} {c : Call σ} {error : Error}
  {stop : Option (Failure × Option Error)} {r : Except Failure α} {slot : Option Error}

/-- A call that raises an error is the last one. -/
theorem of_raises (h : Explains registry world cs stop world') (hcs : cs = before ++ c :: behind)
    (hc : c.Raises registry error) : behind = [] ∧ world' = (c.answer registry).2 := by
  obtain ⟨hbehind, -, hworld⟩ := h.of_stops hcs (.raised hc)
  exact ⟨hbehind, hworld.trans (if_pos hc.1)⟩

theorem slot_eq_some_iff (h : Explains registry world cs stop world') (hout : Outcome stop r slot) :
    slot = some error ↔ ∃ before c, cs = before ++ [c] ∧ c.Raises registry error := by
  constructor
  · rintro rfl
    cases stop with
    | none => cases hout.1
    | some s =>
      obtain ⟨failure, raised⟩ := s
      obtain ⟨-, rfl⟩ := hout
      obtain ⟨before, c, hcs, hc⟩ := h.exists_of_some
      cases hc with
      | raised hc => exact ⟨before, c, hcs, hc⟩
  · rintro ⟨before, c, hcs, hc⟩
    obtain ⟨-, rfl, -⟩ := h.of_stops hcs (.raised hc)
    exact hout.2

end Explains

theorem Outcome.exists_of_slot {α : Type} {stop : Option (Failure × Option Error)}
    {r : Except Failure α}
    {error : Error} (h : Outcome stop r (some error)) : ∃ failure, r = .error failure := by
  cases stop with
  | none => cases h.1
  | some s => exact ⟨_, h.1⟩

/-- A search for an expression makes its calls one after another, each on the state that the one
before has left. If a registered function raises an error, then that is the error of the query, with
all it tells, and no call is made behind it; the slot holds an error just then. A query fails for
another reason only when no registered function has raised an error. -/
theorem evaluate_raised (h : Compiles query e) (registry : Registry σ) (v : Value) (world : σ) :
    let cs := calls registry e v world
    let result := Run.exec (evaluate registry v query) world
    (∃ r slot stop,
      Run.exec (tracedSearch registry e v) ⟨{ world }, none⟩ = (r, ⟨⟨result.2, cs⟩, slot⟩) ∧
      Run.exec (search registry e v) { world } = (r, ⟨result.2, slot⟩) ∧
      Explains registry world cs stop result.2 ∧
      ∀ error, slot = some error ↔ ∃ c ∈ cs, c.Raises registry error) ∧
    (∀ before c behind error, cs = before ++ c :: behind → c.Raises registry error →
      behind = [] ∧ result = (.error error, (c.answer registry).2)) ∧
    ∀ error, result.1 = .error error →
      (∃ before c, cs = before ++ [c] ∧ c.Raises registry error) ∨
      (∀ c ∈ cs, ∀ raised, ¬c.Raises registry raised) ∧
        ∃ failure, (Run.exec (search registry e v) { world }).1 = .error failure ∧
          error = failure.error query := by
  intro cs result
  obtain ⟨r, slot, stop, hx, hy, hcs, hout, hresult⟩ := h.exists_explains registry v world
  have hslot : ∀ error, slot = some error ↔ ∃ c ∈ cs, c.Raises registry error := by
    refine fun error => (hcs.slot_eq_some_iff hout).trans ⟨?_, ?_⟩
    · rintro ⟨before, c, hsplit, hc⟩
      exact ⟨c, by rw [show cs = before ++ [c] from hsplit]; simp, hc⟩
    · rintro ⟨c, hmem, hc⟩
      obtain ⟨before, behind, hsplit⟩ := List.append_of_mem hmem
      obtain ⟨rfl, -⟩ := hcs.of_raises hsplit hc
      exact ⟨before, c, hsplit, hc⟩
  refine ⟨⟨r, slot, stop, hx, hy, hcs, hslot⟩, fun before c behind error hsplit hc => ?_,
    fun error herror => ?_⟩
  · obtain ⟨rfl, hworld⟩ := hcs.of_raises hsplit hc
    obtain rfl := (hcs.slot_eq_some_iff hout).mpr ⟨before, c, hsplit, hc⟩
    obtain ⟨failure, rfl⟩ := hout.exists_of_slot
    exact ⟨rfl, Prod.ext hresult hworld⟩
  · obtain ⟨failure, rfl⟩ : ∃ failure, r = .error failure := by
      cases r with
      | error failure => exact ⟨failure, rfl⟩
      | ok w => cases hresult.symm.trans herror
    obtain rfl := Except.error.inj (herror.symm.trans hresult)
    cases slot with
    | some raised => exact .inl ((hcs.slot_eq_some_iff hout).mp rfl)
    | none =>
      refine .inr ⟨fun c hmem raised hc => ?_, failure, by rw [hy], rfl⟩
      cases (hslot raised).mpr ⟨c, hmem, hc⟩

def twice : Error :=
  { Error.queryEval "called twice" with path := some "here", help := some "Call once" }

def tally : Registry Nat :=
  Registry.empty.register "tally" ⟨⟨[.any]⟩, fun args =>
    Run.ofStep fun n => (if n = 1 then .error twice else .ok (args.headD .null), n + 1)⟩

theorem compiles_tally :
    Compiles "[*].tally(@)" (.project .current (.call 9 "tally" [.current])) := ⟨by cbv, by cbv⟩

/-- A projection on three items makes two calls. -/
theorem evaluate_raised_tally :
    Compiles "[*].tally(@)" (.project .current (.call 9 "tally" [.current])) ∧
    Run.exec (evaluate tally (.sequence [.string "a", .string "b", .string "c"]) "[*].tally(@)") 0 =
      (.error twice, 2) := by
  obtain ⟨-, hlast, -⟩ := evaluate_raised compiles_tally tally
    (.sequence [.string "a", .string "b", .string "c"]) 0
  have hcalls : calls tally (.project .current (.call 9 "tally" [.current]))
      (.sequence [.string "a", .string "b", .string "c"]) 0 =
        [⟨"tally", [.string "a"], 0⟩] ++ ⟨"tally", [.string "b"], 1⟩ :: [] := rfl
  exact ⟨compiles_tally, (hlast _ _ _ twice hcalls ⟨by cbv, by cbv⟩).2⟩

theorem Failure.Plain.error_cases {failure : Failure} (h : failure.Plain) (query : String) :
    (∃ name, failure.error query = .unknownFunction name) ∨
    (∃ name cause, failure.error query = .arityOrType name cause) ∨
    ∃ cause, failure.error query = .queryEval cause := by
  cases failure with
  | unknownFunction name => exact .inl ⟨name, rfl⟩
  | tooFew | tooMany | wrongType => exact .inr (.inl ⟨_, _, rfl⟩)
  | invalidSlice | wrongKey | tooDeep => exact .inr (.inr ⟨_, rfl⟩)
  | parse message => exact absurd rfl (h message)

theorem Failure.Plain.not_isQueryParse {failure : Failure} (h : failure.Plain) :
    ¬(failure.error query).IsQueryParse := by
  rintro ⟨_, hkind⟩
  rcases h.error_cases query with ⟨_, he⟩ | ⟨_, _, he⟩ | ⟨_, he⟩ <;>
    rw [he] at hkind <;> cases hkind

/-- What a query that compiles fails with: a failure that tells what is wrong, or what its last call
did. -/
theorem Compiles.error_cases (h : Compiles query e) {error : Error}
    (herror : (Run.exec (evaluate registry v query) world).1 = .error error) :
    (∃ failure : Failure, failure.Plain ∧ error = failure.error query) ∨
    (∃ before c, calls registry e v world = before ++ [c] ∧ c.Raises registry error) ∨
    ∃ before c wanted, calls registry e v world = before ++ [c] ∧ c.Overflows registry wanted ∧
      error = .queryParse query s!"Expected to be a valid {wanted}" := by
  obtain ⟨r, slot, stop, -, -, hcs, hout, hresult⟩ := h.exists_explains registry v world
  rw [hresult] at herror
  cases stop with
  | none =>
    obtain ⟨rfl, hplain⟩ := hout
    cases r with
    | ok w => cases herror
    | error failure =>
      cases herror
      exact .inl ⟨failure, hplain failure rfl, rfl⟩
  | some s =>
    obtain ⟨failure, raised⟩ := s
    obtain ⟨rfl, rfl⟩ := hout
    obtain ⟨before, c, hsplit, hc⟩ := hcs.exists_of_some
    cases hc with
    | raised hc => cases herror; exact .inr (.inl ⟨before, c, hsplit, hc⟩)
    | overflow hc => cases herror; exact .inr (.inr ⟨before, c, _, hsplit, hc, rfl⟩)

theorem Compiles.of_overflows (h : Compiles query e) {c : Call σ} {wanted : String}
    (hmem : c ∈ calls registry e v world) (hc : c.Overflows registry wanted) :
    (Run.exec (evaluate registry v query) world).1 =
      .error (.queryParse query s!"Expected to be a valid {wanted}") := by
  obtain ⟨r, slot, stop, -, -, hcs, hout, hresult⟩ := h.exists_explains registry v world
  obtain ⟨before, behind, hsplit⟩ := List.append_of_mem hmem
  obtain ⟨-, rfl, -⟩ := hcs.of_stops hsplit (.overflow hc)
  obtain ⟨rfl, rfl⟩ := hout
  exact hresult

/-- A registered function that fails has refused its arguments, or its body fails. -/
theorem Call.Raises.cases_body {c : Call σ} {error : Error} (h : c.Raises registry error) :
    ∃ f, registry.get? c.name = some f ∧ ((∃ cause, error = .arityOrType c.name cause) ∨
      (Run.exec (f.body (c.args.map Value.ofJson)) c.world).1 = .error error) := by
  obtain ⟨hname, herror⟩ := h
  obtain ⟨f, hf⟩ := Option.isSome_iff_exists.mp hname
  unfold Call.answer Registry.call at herror
  simp only [hf] at herror
  cases hcheck : f.signature.check c.name (c.args.map Value.ofJson) with
  | ok =>
    simp only [hcheck] at herror
    exact ⟨f, hf, .inr herror⟩
  | error e =>
    simp only [hcheck] at herror
    cases herror
    exact ⟨f, hf, .inl (Signature.exists_cause_of_check hcheck)⟩

/-- An error of a query has a path only if the body of a registered function has given it one. -/
theorem path_eq_none_or_exists_body {error : Error}
    (h : (Run.exec (evaluate registry v query) world).1 = .error error) :
    error.path = none ∨ ∃ e, Compiles query e ∧ ∃ c ∈ calls registry e v world, ∃ f,
      registry.get? c.name = some f ∧
      (Run.exec (f.body (c.args.map Value.ofJson)) c.world).1 = .error error := by
  by_cases hblank : Text.trim query = ""
  · rw [evaluate, if_pos hblank] at h
    cases h
    exact .inl rfl
  cases hread : Expr.ofText? query with
  | none =>
    rw [evaluate, if_neg hblank, hread] at h
    cases h
    exact .inl rfl
  | some e =>
    have he : Compiles query e := ⟨hblank, hread⟩
    rcases he.error_cases h with ⟨failure, -, rfl⟩ | ⟨before, c, hsplit, hc⟩ | ⟨_, _, _, _, _, rfl⟩
    · exact .inl (by cases failure <;> rfl)
    · obtain ⟨f, hf, ⟨cause, rfl⟩ | hbody⟩ := hc.cases_body
      · exact .inl rfl
      · exact .inr ⟨e, he, c, by simp [hsplit], f, hf, hbody⟩
    · exact .inl rfl

/-- No function of a registry raises an error that tells of a malformed query. -/
def NeverMalformed (registry : Registry σ) : Prop :=
  ∀ name f, registry.get? name = some f → ∀ args world error,
    (Run.exec (f.body args) world).1 = .error error → ¬error.IsQueryParse

theorem NeverMalformed.of_raises (hr : NeverMalformed registry) {c : Call σ} {error : Error}
    (h : c.Raises registry error) : ¬error.IsQueryParse := by
  obtain ⟨f, hf, ⟨cause, rfl⟩ | herror⟩ := h.cases_body
  · rintro ⟨_, hkind⟩
    cases hkind
  · exact hr _ f hf _ _ _ herror

/-- With functions that do not fail in this way themselves, a query fails as malformed if it is
blank or does not compile, which is for all values alike; and if the last function that it calls
calculates a double that is not finite, which depends on the value. All other failures of a query
that compiles are unknown functions, refused arguments, failures of evaluation, and errors raised by
a registered function. -/
theorem isQueryParse_iff (hr : NeverMalformed registry) (v : Value) (query : String) (world : σ) :
    ((∃ error, (Run.exec (evaluate registry v query) world).1 = .error error ∧ error.IsQueryParse) ↔
      Text.trim query = "" ∨ Expr.ofText? query = none ∨
        ∃ e, Compiles query e ∧ ∃ before c wanted, calls registry e v world = before ++ [c] ∧
          c.Overflows registry wanted) ∧
    (Text.trim query = "" ∨ Expr.ofText? query = none → ∃ error : Error, error.IsQueryParse ∧
      ∀ (registry : Registry σ) v, evaluate registry v query = throw error) ∧
    ∀ e, Compiles query e → ∀ error, (Run.exec (evaluate registry v query) world).1 = .error error →
      (∃ name, error = .unknownFunction name) ∨ (∃ name cause, error = .arityOrType name cause) ∨
      (∃ cause, error = .queryEval cause) ∨
      (∃ before c, calls registry e v world = before ++ [c] ∧ c.Raises registry error) ∨
      ∃ before c wanted, calls registry e v world = before ++ [c] ∧ c.Overflows registry wanted ∧
        error = .queryParse query s!"Expected to be a valid {wanted}" := by
  have hthrow : Text.trim query = "" ∨ Expr.ofText? query = none → ∃ error : Error,
    error.IsQueryParse ∧
      ∀ (registry : Registry σ) v, evaluate registry v query = throw error := by
    refine fun h => exists_evaluate_eq_throw fun e he => ?_
    rcases h with h | h
    · exact he.trim_ne h
    · cases h.symm.trans he.ofText
  refine ⟨⟨?_, ?_⟩, hthrow, fun e he error herror => ?_⟩
  · rintro ⟨error, herror, hparse⟩
    by_cases hblank : Text.trim query = ""
    · exact .inl hblank
    cases hread : Expr.ofText? query with
    | none => exact .inr (.inl rfl)
    | some e =>
      have he : Compiles query e := ⟨hblank, hread⟩
      rcases he.error_cases herror with
        ⟨failure, hplain, rfl⟩ | ⟨_, c, -, hc⟩ | ⟨before, c, wanted, hsplit, hc, -⟩
      · exact absurd hparse hplain.not_isQueryParse
      · exact absurd hparse (hr.of_raises hc)
      · exact .inr (.inr ⟨e, he, before, c, wanted, hsplit, hc⟩)
  · rintro (h | h | ⟨e, he, before, c, wanted, hsplit, hc⟩)
    · obtain ⟨error, hparse, heq⟩ := hthrow (.inl h)
      exact ⟨error, by rw [heq]; rfl, hparse⟩
    · obtain ⟨error, hparse, heq⟩ := hthrow (.inr h)
      exact ⟨error, by rw [heq]; rfl, hparse⟩
    · exact ⟨_, he.of_overflows (by simp [hsplit]) hc, query, rfl⟩
  · rcases he.error_cases herror with ⟨failure, hplain, rfl⟩ | hraised | hover
    · rcases hplain.error_cases query with hname | harity | hcause
      · exact .inl hname
      · exact .inr (.inl harity)
      · exact .inr (.inr (.inl hcause))
    · exact .inr (.inr (.inr (.inl hraised)))
    · exact .inr (.inr (.inr (.inr hover)))

theorem neverMalformed_tally : NeverMalformed tally := by
  intro name f hf args n error herror
  have hmem : (name, f) ∈ tally.entries := Assoc.mem_of_find? hf
  obtain ⟨-, rfl⟩ := Prod.mk.inj (List.mem_singleton.mp hmem)
  change (if n = 1 then Except.error twice else .ok (args.headD .null)) = .error error at herror
  split at herror
  · cases herror
    rintro ⟨_, hkind⟩
    cases hkind
  · cases herror

theorem compiles_mean : Compiles "avg(@)" (.call 3 "avg" [.current]) := ⟨by cbv, by cbv⟩

/-- The mean of nothing is not finite. -/
theorem isQueryParse_mean :
    NeverMalformed tally ∧
      ∃ error, (Run.exec (evaluate tally (.sequence []) "avg(@)") 0).1 = .error error ∧
        error.IsQueryParse := by
  have hcalls : calls tally (.call 3 "avg" [.current]) (.sequence []) 0 =
    [] ++ [⟨"avg", [.array []], 0⟩] :=
    rfl
  exact ⟨neverMalformed_tally, (isQueryParse_iff neverMalformed_tally _ _ _).1.mpr
    (.inr (.inr ⟨_, compiles_mean, _, _, "f64", hcalls, rfl, Standard.mean [], rfl, rfl⟩))⟩

/-- One query fails as malformed on a value, and does not fail on another. -/
theorem isQueryParse_depends_on_value :
    NeverMalformed (Registry.empty : Registry Unit) ∧
    Text.trim "avg(@)" ≠ "" ∧ Expr.ofText? "avg(@)" = some (.call 3 "avg" [.current]) ∧
    (Run.exec (evaluate (Registry.empty : Registry Unit) (.sequence []) "avg(@)") ()).1 =
      .error (.queryParse "avg(@)" "Expected to be a valid f64") ∧
    ∃ v, (Run.exec (evaluate (Registry.empty : Registry Unit) (.sequence [.int 1]) "avg(@)") ()).1 =
      .ok v := by
  refine ⟨nofun, compiles_mean.trim_ne, compiles_mean.ofText, ?_, ?_⟩
  · rw [compiles_mean.evaluate_eq]
    rfl
  · rw [compiles_mean.evaluate_eq]
    exact ⟨_, rfl⟩

end Query
end Manifest
