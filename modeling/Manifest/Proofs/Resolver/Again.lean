import Manifest.Proofs.Placeholder.Scan
import Manifest.Proofs.Resolver.Plain

/-! Resolving a document that has been resolved already. Placeholders are substituted once, and what
is put in their place is not scanned. So the result can hold placeholders that the document does
not; if it holds none, it resolves to itself. -/
namespace Manifest

namespace Template

theorem dollar_mem_of_hasPlaceholder {text : String} (h : hasPlaceholder text = true) :
    '$' ∈ text.toList := by
  obtain ⟨m, before, w, behind, he, hw, -, -⟩ := (hasPlaceholder_iff text).mp h
  have hdollar : '$' ∈ w := by
    cases hw
    exact List.mem_cons_self ..
  rw [he]
  exact List.mem_append_left _ (List.mem_append_right _ hdollar)

/-- With a replacement for each placeholder, a character of the result is one of the text between
placeholders or of a replacement. -/
theorem mem_fill {c : Char} {ps : List Piece} {rs : List String}
    (hlen : (placeholders ps).length ≤ rs.length) (h : c ∈ fill ps rs) :
    (∃ cs, .literal cs ∈ ps ∧ c ∈ cs) ∨ ∃ r ∈ rs, c ∈ r.toList := by
  induction ps generalizing rs with
  | nil => cases h
  | cons piece ps ih =>
    cases piece with
    | literal cs =>
      rcases List.mem_append.mp h with h | h
      · exact .inl ⟨cs, List.mem_cons_self .., h⟩
      · refine (ih hlen h).imp_left ?_
        rintro ⟨cs', hcs, hc⟩
        exact ⟨cs', List.mem_cons_of_mem _ hcs, hc⟩
    | placeholder p cs =>
      cases rs with
      | nil => simp [placeholders] at hlen
      | cons r rs =>
        rcases List.mem_append.mp h with h | h
        · exact .inr ⟨r, List.mem_cons_self .., h⟩
        · refine (ih (Nat.le_of_succ_le_succ hlen) h).imp ?_ ?_
          · rintro ⟨cs', hcs, hc⟩
            exact ⟨cs', List.mem_cons_of_mem _ hcs, hc⟩
          · rintro ⟨r', hr, hc⟩
            exact ⟨r', List.mem_cons_of_mem _ hr, hc⟩

/-- Text without a dollar sign, filled with texts without one, has no placeholder. -/
theorem hasPlaceholder_fill_eq_false {ps : List Piece} {rs : List String}
    (hlen : (placeholders ps).length ≤ rs.length) (hps : ∀ cs, .literal cs ∈ ps → '$' ∉ cs)
    (hrs : ∀ r ∈ rs, '$' ∉ r.toList) : hasPlaceholder (String.ofList (fill ps rs)) = false := by
  rw [Bool.eq_false_iff]
  intro h
  have hmem := dollar_mem_of_hasPlaceholder h
  rw [String.toList_ofList] at hmem
  rcases mem_fill hlen hmem with ⟨cs, hcs, hc⟩ | ⟨r, hr, hc⟩
  · exact hps cs hcs hc
  · exact hrs r hr hc

end Template

namespace Scope

variable {s : Scope}

/-- There is no dollar sign in a text with placeholders but in these, and none in what uses put in
their place. -/
def Unmarked (s : Scope) (uses : List Use) : Prop :=
  ∀ keys written, s.document.root.getIn keys = .ok (.string written) →
    Template.hasPlaceholder written = true →
    (∀ cs, .literal cs ∈ Template.pieces written.toList → '$' ∉ cs) ∧
    ∀ u ∈ uses, u.owner = keys → ∀ w, u.outcome = .ok w → '$' ∉ w.render.toList

theorem Coherent.plain_of_unmarked {uses : List Use} {value : Keys → Option Value} {keys : Keys}
    {v w : Value} (h : s.Coherent uses value) (hu : s.Unmarked uses) (hw : value keys = some w)
    (hv : s.document.root.getIn keys = .ok v) : w.Plain := by
  intro text ht
  obtain ⟨keys, written, hwritten, htext⟩ := h.exists_text hw hv ht
  cases hp : Template.hasPlaceholder written with
  | false =>
    have heq := h.eq_of_plain htext hwritten fun text ht => by
      obtain rfl : text = written := by simpa [Value.texts] using ht
      exact hp
    cases heq
    exact hp
  | true =>
    obtain ⟨hliteral, hused⟩ := hu keys written hwritten hp
    obtain ⟨parts, us, hus, hmeet, he⟩ := h.exists_meet htext hwritten
    obtain rfl : text = _ := Value.string.inj he
    have hall := hmeet.forall₂
    have hlen : (Template.placeholders (Template.pieces written.toList)).length ≤
        (parts.map Value.render).length := by
      rw [List.length_map, ← hall.length_eq]
      simp [needs]
    refine Template.hasPlaceholder_fill_eq_false hlen hliteral fun t ht => ?_
    obtain ⟨part, hpart, rfl⟩ := List.mem_map.mp ht
    obtain ⟨i, hi, rfl⟩ := List.getElem_of_mem hpart
    obtain ⟨u, hmem, howner, -, ho⟩ := hall.get (hall.length_eq ▸ hi) hi
    exact hused u (hus hmem) howner _ ho

end Scope

namespace Resolver

variable {σ : Type}

/-- A document without placeholders resolves to itself, whatever the evaluator does. -/
theorem resolveOnce_of_plain (r : Resolver σ) (hp : r.document.root.Plain) (world : σ) :
    (Run.exec (r.resolveOnce "") world).1 = .ok r.document.root := by
  have hroot : r.document.get (Path.expand r.home "") = .ok r.document.root := rfl
  obtain ⟨q, hvisit, -⟩ := exists_visits_get "" rfl (r.tidy_start world)
    (by simp [Scope.Verbatim]) fun v hv => Except.ok.inj (hroot.symm.trans hv) ▸ hp
  exact congrArg Prod.fst (exec_resolve_eq_iff.mpr (hroot ▸ hvisit))

/-- If the root of a document resolves, each node of the result is put together from uses of other
nodes. A use is of the value that its target has in the result, if positions among its keys are in
plain decimals or queries depend on nothing but value and query. What is substituted is not scanned
again, and a node without placeholders is as it is written. Between the placeholders of a text there
is none, so that one in the result takes part of what was substituted; if neither that nor the text
around it has a dollar sign then there is none at all, and no query is asked on a value with one. If
the result holds no placeholder then no query was asked on one, and the result, taken as a document,
resolves to itself from any state of the evaluator. -/
theorem resolveOnce_again (r : Resolver σ) {world : σ} {whole : Value}
    (hw : (Run.exec (r.resolveOnce "") world).1 = .ok whole) :
    let uses := r.usesIn "" { world }
    let seen (u : Use) := u.need.keys ∈ r.document.root.addresses ∨ ∃ answer, r.Answers answer
    (∀ keys v, keys ∈ r.document.root.addresses → r.document.root.getIn keys = .ok v →
      ∃ w, whole.getIn keys = .ok w ∧ r.MadeFrom uses keys w ∧ (v.Plain → w = v)) ∧
    (∀ u ∈ uses, (seen u → whole.getIn u.need.keys = .ok u.target) ∧
      (u.need.query = none → u.outcome = .ok u.target)) ∧
    (∀ written ∈ r.document.root.texts, ∀ cs, .literal cs ∈ Template.pieces written.toList →
      Template.hasPlaceholder (String.ofList cs) = false) ∧
    (r.Unmarked uses → whole.Plain ∧ ∀ u ∈ uses, u.target.Plain) ∧
    (whole.Plain → (∀ u ∈ uses, seen u → u.target.Plain) ∧ (Document.ofValue whole).root = whole ∧
      ∀ world', (Run.exec ({ r with document := .ofValue whole }.resolveOnce "") world').1 =
        .ok whole) := by
  intro uses seen
  have hcoh := r.coherent_resolveOnce "" world
  have hvisits : r.Visits r.settle [] { world } (.ok whole) (Run.exec (r.resolve "") { world }).2 :=
    hw ▸ r.visits_resolve "" { world }
  have hroot : r.document.root.getIn [] = .ok r.document.root := rfl
  have hwhole := hvisits.find?_eq
  have hdistinct : (Document.ofValue whole).root = whole :=
    Value.distinct_eq_self (hcoh.distinct hwhole hroot)
  have hseen : ∀ u ∈ uses, seen u → whole.getIn u.need.keys = .ok u.target := by
    rintro u hu (hmem | ⟨answer, hanswer⟩)
    · obtain ⟨x, hx, hvalue⟩ := hcoh.exists_walk hwhole hroot hmem
      rw [List.nil_append] at hvalue
      obtain rfl : x = u.target := Option.some.inj (hvalue.symm.trans (hcoh.target u hu))
      exact Value.getIn_eq_ok.mpr hx
    · obtain ⟨hnaive, hfaithful⟩ :=
        hvisits.eq_naive hanswer.exec_settle (r.tidy_start world) (by simp [Scope.Faithful])
      rw [← Scope.naive_eq_getIn hnaive.symm]
      exact hfaithful _ _ (hcoh.target u hu)
  refine ⟨fun keys v hmem hv => ?_, fun u hu => ⟨hseen u hu, hcoh.outcome u hu⟩,
    fun written _ cs hcs => Template.hasPlaceholder_of_literal_mem hcs,
    fun hu => ⟨?_, fun u hmem => ?_⟩,
    fun hp => ⟨fun u hu hs => hp.of_getIn (hseen u hu hs), hdistinct, fun world' => ?_⟩⟩
  · obtain ⟨w, hwalk, hvalue⟩ := hcoh.exists_walk hwhole hroot hmem
    rw [List.nil_append] at hvalue
    exact ⟨w, Value.getIn_eq_ok.mpr hwalk, hcoh.made keys w hvalue, hcoh.eq_of_plain hvalue hv⟩
  · exact hcoh.plain_of_unmarked hu hwhole hroot
  · have htarget := hcoh.target u hmem
    obtain ⟨v, -, -, hv, -⟩ := hcoh.made _ _ htarget
    exact hcoh.plain_of_unmarked hu htarget hv
  · have hplain : (Document.ofValue whole).root.Plain := hdistinct.symm ▸ hp
    have hagain := resolveOnce_of_plain { r with document := .ofValue whole } hplain world'
    exact hagain.trans (congrArg Except.ok hdistinct)

def numbering : Resolver Nat where
  document := .ofValue <| .mapping [("a", .string "x"), ("b", .string "${a} ${a~@~} ${a~@~}")]
  evaluate _ _ := Run.ofStep fun n => (.ok (.int (.ofNat n)), n + 1)

theorem unmarked_numbering : numbering.Unmarked (numbering.usesIn "" { world := 0 }) := by
  have htexts : numbering.document.root.texts = ["x", "${a} ${a~@~} ${a~@~}"] := by cbv
  have hpieces : Template.pieces "${a} ${a~@~} ${a~@~}".toList =
      [.placeholder ⟨"a", none⟩ "${a}".toList, .literal [' '],
        .placeholder ⟨"a", some "@"⟩ "${a~@~}".toList, .literal [' '],
        .placeholder ⟨"a", some "@"⟩ "${a~@~}".toList] := by
    cbv
  have houtcomes : (numbering.usesIn "" { world := 0 }).map Use.outcome =
      [.ok (.string "x"), .ok (.string "x"), .ok (.int 0), .ok (.int 1),
        .ok (.string "x 0 1")] := by
    cbv
  intro keys written hv hp
  have hmem := Value.mem_texts_of_walk (Value.getIn_eq_ok.mp hv)
  rw [htexts, List.mem_cons, List.mem_singleton] at hmem
  rcases hmem with rfl | rfl
  · have hplain : Template.hasPlaceholder "x" = false := by cbv
    rw [hplain] at hp
    cases hp
  refine ⟨fun cs hcs => ?_, fun u hu _ w hw => ?_⟩
  · rw [hpieces] at hcs
    obtain rfl : cs = [' '] := by simpa using hcs
    decide
  · have ho := List.mem_map_of_mem (f := Use.outcome) hu
    rw [houtcomes, hw] at ho
    simp only [List.mem_cons, Except.ok.injEq, List.not_mem_nil, or_false] at ho
    rcases ho with rfl | rfl | rfl | rfl | rfl <;> decide +kernel

theorem resolveOnce_again_numbering :
    ∃ whole, (Run.exec (numbering.resolveOnce "") 0).1 = .ok whole ∧
      whole.getIn ["b"] = .ok (.string "x 0 1") ∧ whole.Plain ∧
      (Run.exec ({ numbering with document := .ofValue whole }.resolveOnce "") 7).1 =
        .ok whole := by
  have hw : (Run.exec (numbering.resolveOnce "") 0).1 =
      .ok (.mapping [("a", .string "x"), ("b", .string "x 0 1")]) := by
    cbv
  obtain ⟨-, -, -, hplain, hagain⟩ := resolveOnce_again numbering hw
  obtain ⟨hp, -⟩ := hplain unmarked_numbering
  exact ⟨_, hw, by cbv, hp, (hagain hp).2.2 7⟩

/-- Two texts that make a placeholder when they are put together, and a query on the result. -/
def assembling : Resolver Nat where
  document := .ofValue <| .mapping
    [("a", .string "$"), ("b", .string "{a}"), ("c", .string "${a}${b}"), ("d", .string "${c~@~}")]
  evaluate v query := Run.ofStep fun n => (echo v query, n + 1)

theorem resolveOnce_again_assembling :
    ∃ whole other, (Run.exec (assembling.resolveOnce "") 0).1 = .ok whole ∧ ¬ whole.Plain ∧
      (assembling.usesIn "" { world := 0 }).filterMap Use.question? = [(.string "${a}", "@")] ∧
      (Run.exec ({ assembling with document := .ofValue whole }.resolveOnce "") 0).1 = .ok other ∧
      whole.getIn ["c"] = .ok (.string "${a}") ∧ other.getIn ["c"] = .ok (.string "$") := by
  refine ⟨.mapping [("a", .string "$"), ("b", .string "{a}"), ("c", .string "${a}"),
      ("d", .string "${a}")],
    .mapping [("a", .string "$"), ("b", .string "{a}"), ("c", .string "$"), ("d", .string "$")],
    by cbv, ?_, by cbv, by cbv, by cbv, by cbv⟩
  intro h
  have hbad := h "${a}" (by simp [Value.texts, Value.entryTexts])
  revert hbad
  decide +kernel

end Resolver
end Manifest
