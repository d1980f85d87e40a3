import Manifest.Proofs.Text.Octets
import Manifest.Proofs.Value.Normal
import Manifest.Query
import Mathlib

/-! Queries see no more of a value than its normal form, and what they give is a normal form. -/
namespace Manifest

namespace Value

/-- In the normal form of a mapping the keys ascend in the order of their octets, and behind them
are the normal forms of all that was there. -/
theorem exists_norm_mapping {entries : List (String × Value)} (h : (entries.map Prod.fst).Nodup) :
    ∃ es, norm (.mapping entries) = .mapping es ∧ es.Perm (entries.map fun e => (e.1, norm e.2)) ∧
      es.Pairwise fun a b => Text.Utf8.encode a.1 < Text.Utf8.encode b.1 := by
  have hkeys : ((entries.map fun e => (e.1, norm e.2)).map Prod.fst).Nodup := by
    rwa [List.map_map]
  refine ⟨_, norm_mapping entries, Assoc.perm_sorted hkeys, ?_⟩
  have hsorted := Assoc.pairwise_sorted (entries.map fun e => (e.1, norm e.2))
  rw [List.pairwise_map] at hsorted
  exact hsorted.imp Text.Utf8.encode_lt_encode.mpr

end Value

namespace Query

variable {σ : Type} {registry : Registry σ} {v r : Value} {query : String} {world : σ}

theorem evaluate_norm (registry : Registry σ) (v : Value) (query : String) :
    evaluate registry v.norm query = evaluate registry v query := by
  unfold evaluate search
  rw [Value.toSortedJson_norm]

theorem ofText?_current : Expr.ofText? "@" = some .current := by cbv

theorem evaluate_current (registry : Registry σ) (v : Value) :
    evaluate registry v "@" = pure v.norm := by
  have hsearch : search registry .current v = pure v.norm := by
    rw [← Value.ofJson_toSortedJson (ρ := Reference) v]
    rfl
  have hblank : Text.trim "@" ≠ "" := by cbv
  rw [evaluate, if_neg hblank, ofText?_current]
  dsimp only
  rw [hsearch]
  rfl

theorem exists_of_evaluate (h : (Run.exec (evaluate registry v query) world).1 = .ok r) :
    ∃ x : Datum, r = Value.ofJson x := by
  unfold evaluate at h
  split at h
  · cases h
  cases he : Expr.ofText? query with
  | none => rw [he] at h; cases h
  | some e =>
    rw [he] at h
    rw [Search.exec_toRun, search, Run.exec_bind_pure] at h
    rcases hx : Run.exec (e.eval (call registry (apply registry depthLimit)) v.toSortedJson)
      ⟨world, none⟩ with ⟨failure | x, s⟩
    · rw [hx] at h
      cases h
    · rw [hx] at h
      exact ⟨x, (Except.ok.inj h).symm⟩

/-- A value that goes to JSON and back is its normal form, which is its own: datetimes are texts,
doubles that are no numbers null, and mappings in the order of the octets of their keys. No query
tells a value from its normal form, on whatever functions and in whatever state; what queries give
are normal forms, and the normal form is what the query for the value itself gives. -/
theorem evaluate_normal (registry : Registry σ) (v : Value) (query : String) :
    Value.ofJson (v.toSortedJson : Json Empty) = v.norm ∧ v.norm.norm = v.norm ∧
    (∀ entries : List (String × Value), (entries.map Prod.fst).Nodup →
      ∃ es, Value.norm (.mapping entries) = .mapping es ∧
        es.Perm (entries.map fun e => (e.1, e.2.norm)) ∧
        es.Pairwise fun a b => Text.Utf8.encode a.1 < Text.Utf8.encode b.1) ∧
    evaluate registry v.norm query = evaluate registry v query ∧
    (∀ world r, (Run.exec (evaluate registry v query) world).1 = .ok r → r.norm = r) ∧
    evaluate registry v "@" = pure v.norm := by
  refine ⟨v.ofJson_toSortedJson, v.norm_norm, fun _ => Value.exists_norm_mapping,
    evaluate_norm registry v query, fun world r h => ?_, evaluate_current registry v⟩
  obtain ⟨x, rfl⟩ := exists_of_evaluate h
  exact Value.norm_ofJson x

end Query
end Manifest
