import Manifest.Project
import Manifest.Proofs.Json.Reading
import Manifest.Proofs.Value.Order
import Mathlib

/-! What a value is exported as, compact or over several lines, is read back as its normal form. -/
namespace Manifest

namespace Json.Reader

variable {ρ : Type} {inner : Json ρ → List Char → Prop} {x : Json ρ} {xs : List (Json ρ)}
  {m : String × Json ρ} {ms : List (String × Json ρ)}

theorem blanks_nil : Blanks [] := nofun

theorem blanks_space : Blanks [' '] := fun _ hc => List.mem_singleton.mp hc ▸ rfl

theorem blanks_newline (k : Nat) : Blanks (newline k) := by
  intro c hc
  rcases List.mem_cons.mp hc with rfl | hc
  · rfl
  · rw [List.eq_of_mem_replicate hc]
    rfl

theorem listed_compactItems (h : ∀ y ∈ x :: xs, inner y (compactChars y)) :
    Listed inner ']' (x :: xs) (compactChars x ++ compactItems xs ++ [']']) := by
  have hmore : ∀ y (ys : List (Json ρ)),
    compactItems (y :: ys) = ',' :: ([] ++ (compactChars y ++ compactItems ys)) :=
    fun y ys => by rw [compactItems, List.nil_append, List.cons_append]
  simpa using listed_of_forall blanks_nil blanks_nil rfl hmore h

theorem listed_compactMembers (h : ∀ e ∈ m :: ms, inner e.2 (compactChars e.2)) :
    Listed (WrittenMember inner) '}' (m :: ms)
      (quoted m.1 ++ ':' :: compactChars m.2 ++ compactMembers ms ++ ['}']) := by
  have hmore : ∀ e (es : List (String × Json ρ)), compactMembers (e :: es) =
      ',' :: ([] ++ (quoted e.1 ++ ':' :: compactChars e.2 ++ compactMembers es)) :=
    fun e es => by simp [compactMembers]
  have hmember : ∀ e ∈ m :: ms, WrittenMember inner e (quoted e.1 ++ ':' :: compactChars e.2) :=
    fun e he => ⟨[], _, blanks_nil, h e he, rfl⟩
  simpa using listed_of_forall blanks_nil blanks_nil rfl hmore hmember

theorem listed_prettyItems (k j : Nat) (h : ∀ y ∈ x :: xs, inner y (prettyChars k y)) :
    Listed inner ']' (x :: xs)
      (newline k ++ prettyChars k x ++ prettyItems k xs ++ newline j ++ [']']) := by
  have hmore : ∀ y (ys : List (Json ρ)), prettyItems k (y :: ys) =
      ',' :: (newline k ++ (prettyChars k y ++ prettyItems k ys)) :=
    fun y ys => by simp [prettyItems]
  simpa using listed_of_forall (blanks_newline k) (blanks_newline j) rfl hmore h

theorem listed_prettyMembers (k j : Nat) (h : ∀ e ∈ m :: ms, inner e.2 (prettyChars k e.2)) :
    Listed (WrittenMember inner) '}' (m :: ms)
      (newline k ++ quoted m.1 ++ ':' :: ' ' :: prettyChars k m.2 ++ prettyMembers k ms ++
        newline j ++ ['}']) := by
  have hmore : ∀ e (es : List (String × Json ρ)), prettyMembers k (e :: es) =
      ',' :: (newline k ++ (quoted e.1 ++ ':' :: ' ' :: prettyChars k e.2 ++ prettyMembers k es)) :=
    fun e es => by simp [prettyMembers]
  have hmember : ∀ e ∈ m :: ms,
    WrittenMember inner e (quoted e.1 ++ ':' :: ' ' :: prettyChars k e.2) :=
    fun e he => ⟨[' '], _, blanks_space, h e he, rfl⟩
  simpa using listed_of_forall (blanks_newline k) (blanks_newline j) rfl hmore hmember

end Json.Reader

namespace Value

open Json.Reader

variable {ρ : Type} {v w : Value} {d : Nat}

theorem written_scalar (hfloat : v.FloatFree) (h : v.isContainer = false) :
    Written d (v.toJson : Json ρ) (Json.compactChars (v.toJson : Json ρ)) ∧
      ∀ k, Json.prettyChars k (v.toJson : Json ρ) = Json.compactChars (v.toJson : Json ρ) := by
  have hscalar : ∀ {x : Json ρ} {s : List Char}, Scalar x s → Written d x s := fun h => by
    cases d with
    | zero => exact h
    | succ d => exact .inl h
  cases v with
  | null => exact ⟨hscalar .null, fun _ => rfl⟩
  | bool b => cases b with
    | true => exact ⟨hscalar .true, fun _ => rfl⟩
    | false => exact ⟨hscalar .false, fun _ => rfl⟩
  | int n => exact ⟨hscalar (.int n.le_toInt (lt_trans n.toInt_lt (by decide))), fun _ => rfl⟩
  | float x => exact absurd (List.mem_singleton_self _) (hfloat x)
  | string s => exact ⟨hscalar (.string s), fun _ => rfl⟩
  | datetime t => exact ⟨hscalar (.string t.text), fun _ => rfl⟩
  | sequence | mapping => cases h

theorem written_toJson (hfloat : v.FloatFree) (hdepth : v.depth ≤ d) :
    Written d (v.toJson : Json ρ) (Json.compactChars (v.toJson : Json ρ)) ∧
      ∀ k, Written d (v.toJson : Json ρ) (Json.prettyChars k (v.toJson : Json ρ)) := by
  induction v using induction_children generalizing d with
  | h v ih =>
    by_cases hleaf : v.isContainer = false
    · obtain ⟨hwritten, hpretty⟩ := written_scalar (ρ := ρ) (d := d) hfloat hleaf
      exact ⟨hwritten, fun k => hpretty k ▸ hwritten⟩
    obtain ⟨n, rfl⟩ : ∃ n, d = n + 1 := by
      have hpos : 0 < v.depth := by cases v <;> simp_all [isContainer, depth]
      exact Nat.exists_eq_add_of_le' (hpos.trans_le hdepth)
    have hchild : ∀ w ∈ v.children,
      Written n (w.toJson : Json ρ) (Json.compactChars (w.toJson : Json ρ)) ∧
        ∀ k, Written n (w.toJson : Json ρ) (Json.prettyChars k (w.toJson : Json ρ)) := fun w hw =>
      ih w hw (hfloat.of_mem_children hw)
        (Nat.le_of_lt_succ ((depth_lt_of_mem_children hw).trans_le hdepth))
    cases v with
    | sequence items =>
      rw [toJson, toJsonItems_eq_map]
      cases items with
      | nil => exact ⟨.inr .emptyArray, fun _ => .inr .emptyArray⟩
      | cons u us =>
        have hitems : ∀ y ∈ (u :: us).map (toJson : Value → Json ρ),
            Written n y (Json.compactChars y) ∧ ∀ k, Written n y (Json.prettyChars k y) :=
          List.forall_mem_map.mpr hchild
        exact ⟨.inr (.array (listed_compactItems fun y hy => (hitems y hy).1)),
          fun k => .inr (.array (listed_prettyItems (k + 1) k fun y hy => (hitems y hy).2 (k + 1)))⟩
    | mapping entries =>
      rw [toJson, toJsonEntries_eq_map]
      cases entries with
      | nil => exact ⟨.inr .emptyObject, fun _ => .inr .emptyObject⟩
      | cons u us =>
        have hmembers : ∀ m ∈ (u :: us).map fun e => (e.1, (e.2.toJson : Json ρ)),
            Written n m.2 (Json.compactChars m.2) ∧ ∀ k, Written n m.2 (Json.prettyChars k m.2) :=
          List.forall_mem_map.mpr fun e he => hchild e.2 (List.mem_map_of_mem he)
        exact ⟨.inr (.object (listed_compactMembers fun e he => (hmembers e he).1)),
          fun k =>
            .inr (.object (listed_prettyMembers (k + 1) k fun e he => (hmembers e he).2 (k + 1)))⟩
    | _ => exact absurd rfl hleaf

/-- A value without doubles that is not too deep is read back from either of its texts, its mappings
in order and datetimes as text. -/
theorem ofJson_ofText? (hfloat : v.FloatFree) (hdepth : v.depth < 128) :
    (Json.ofText? v.json).map (ofJson (ρ := Empty)) = some v.norm ∧
      (Json.ofText? v.jsonLines).map (ofJson (ρ := Empty)) = some v.norm := by
  obtain ⟨hcompact, hpretty⟩ := written_toJson (ρ := Empty) hfloat (Nat.le_of_lt_succ hdepth)
  have hback : (some (v.toJson : Json Empty)).map (fun x => ofJson x.sorted) = some v.norm :=
    congrArg some v.ofJson_toSortedJson
  have hread : ∀ s : String, Written 127 (v.toJson : Json Empty) s.toList →
      (Json.ofText? s).map (ofJson (ρ := Empty)) = some v.norm := fun s hs => by
    rw [Json.ofText?, Json.raw?_of_written hs, ← hback]
    rfl
  refine ⟨hread _ ?_, hread _ ?_⟩
  · rw [json, Json.compact, String.toList_ofList]
    exact hcompact
  · rw [jsonLines, Json.pretty, String.toList_ofList]
    exact hpretty 0

/-- One text has one value. -/
theorem norm_eq_of_written {s : List Char} (hv : Written d (v.toJson : Json Empty) s)
    (hw : Written d (w.toJson : Json Empty) s) : v.norm = w.norm := by
  have hboth := (value_of_written hv ends_nil).symm.trans (value_of_written hw ends_nil)
  have htree : (v.toJson : Json Empty) = w.toJson := (Prod.mk.inj (Option.some.inj hboth)).1
  rw [← ofJson_toSortedJson (ρ := Empty) v, ← ofJson_toSortedJson (ρ := Empty) w, toSortedJson,
    toSortedJson, htree]

/-- Values without doubles that are written alike, however deep they are, have one normal form. -/
theorem norm_eq_of_text_eq (hv : v.FloatFree) (hw : w.FloatFree)
    (h : v.json = w.json ∨ v.jsonLines = w.jsonLines) : v.norm = w.norm := by
  obtain ⟨hvcompact, hvpretty⟩ := written_toJson (ρ := Empty) hv (le_max_left v.depth w.depth)
  obtain ⟨hwcompact, hwpretty⟩ := written_toJson (ρ := Empty) hw (le_max_right v.depth w.depth)
  rcases h with h | h
  · have heq := String.ofList_inj.mp h
    exact norm_eq_of_written hvcompact (heq ▸ hwcompact)
  · have heq := String.ofList_inj.mp h
    exact norm_eq_of_written (hvpretty 0) (heq ▸ hwpretty 0)

end Value

namespace Project

variable {σ : Type}

theorem exec_toJson_false (p : Project σ) (s : Session σ) :
    Run.exec (p.toJson false) s = (.ok p.document.root.jsonLines, s) := rfl

/-- The JSON text of a value without doubles, compact or as a project whose document it is exports
it, is read back as that value with datetimes as their text and mappings in the order of their keys,
as long as fewer than 128 containers stand inside one another. At any depth, documents without
doubles and datetimes that are exported alike are the same but for the order of entries. -/
theorem export_reads_back (v : Value) (hfloat : v.FloatFree) :
    (v.depth < 128 → (Json.ofText? v.json).map (Value.ofJson (ρ := Empty)) = some v.norm ∧
      ∀ p : Project σ, p.document.root = v → ∀ s, ∃ text,
      Run.exec (p.toJson false) s = (.ok text, s) ∧
        (Json.ofText? text).map (Value.ofJson (ρ := Empty)) = some v.norm) ∧
    v.norm.Ordered ∧
    ∀ p q : Project σ, p.document.root = v → v.DatetimeFree →
      q.document.root.FloatFree → q.document.root.DatetimeFree →
      (v.json = q.document.root.json ∨
        ∃ s t text, (Run.exec (p.toJson false) s).1 = .ok text ∧
        (Run.exec (q.toJson false) t).1 = .ok text) →
      Value.same v q.document.root = true := by
  refine ⟨fun hdepth => ?_, v.ordered_norm, ?_⟩
  · obtain ⟨hcompact, hlines⟩ := Value.ofJson_ofText? hfloat hdepth
    refine ⟨hcompact, ?_⟩
    rintro p rfl s
    exact ⟨_, exec_toJson_false p s, hlines⟩
  · rintro p q rfl hdate hqfloat hqdate htext
    have halike : p.document.root.json = q.document.root.json ∨
        p.document.root.jsonLines = q.document.root.jsonLines := by
      rcases htext with h | ⟨s, t, text, hp, hq⟩
      · exact .inl h
      · rw [exec_toJson_false] at hp hq
        exact .inr (Except.ok.inj (hp.trans hq.symm))
    have hnorm := Value.norm_eq_of_text_eq hfloat hqfloat halike
    exact Value.same_of_norm_eq p.document.distinct q.document.distinct ⟨hfloat, hqfloat⟩
      ⟨hdate, hqdate⟩ hnorm

def crate : Value := .mapping [
  ("é\"\n", .sequence [.int Int64.minValue, .sequence [], .mapping [], .bool true, .null]),
  ("b", .datetime (.date ⟨2024, 2, 29⟩)), ("a", .string "\x01\\")]

theorem export_reads_back_crate :
    crate.FloatFree ∧ crate.depth < 128 ∧ crate.json =
      "\x7b\"é\\\"\\n\":[-9223372036854775808,[],\x7b\x7d,true,null],\"b\":\"2024-02-29\",\"a\":\"\\u0001\\\\\"\x7d" ∧
    (Json.ofText? crate.json).map (Value.ofJson (ρ := Empty)) =
      some (.mapping [("a", .string "\x01\\"),
      ("b", .string "2024-02-29"),
      ("é\"\n",
      .sequence [.int Int64.minValue, .sequence [], .mapping [], .bool true, .null])]) := by
  have hfloat : crate.FloatFree := by
    simp [Value.FloatFree, crate, Value.leaves, Value.itemLeaves, Value.entryLeaves]
  have hdepth : crate.depth < 128 := by decide
  refine ⟨hfloat, hdepth, by cbv, ?_⟩
  have hread := ((export_reads_back (σ := Unit) crate hfloat).1 hdepth).1
  rw [hread]
  cbv

end Project
end Manifest
