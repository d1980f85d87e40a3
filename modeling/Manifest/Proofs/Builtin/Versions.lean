import Manifest.Proofs.Function.Registry
import Manifest.Proofs.List.MapM
import Manifest.Proofs.Version.Order
import Manifest.Proofs.Version.Reading
import Mathlib

/-! What the functions on versions answer: the greatest and the least of several versions, which are
those of the order of versions, and the numbers of one version or of several. -/
namespace Manifest

namespace Builtin

variable {name : String} {x y : Value} {l l' : List Value} {v w : Version} {vs : List Version}

/-- A text that is a version, white space around it aside. -/
def Denotes (x : Value) (v : Version) : Prop := ∃ s, x = .string s ∧ v.Valid ∧ v.text = Text.trim s

theorem denotes_text (h : v.Valid) : Denotes (.string v.text) v :=
  ⟨v.text, rfl, h, (Version.trim_text h).symm⟩

theorem versionOf_eq_ok_iff : versionOf name x = .ok v ↔ Denotes x v := by
  unfold Denotes
  cases x with
  | string s =>
    rw [versionOf]
    simp only [Value.string.injEq, exists_eq_left', ← Version.read_eq_ok_iff]
    cases Version.read (Text.trim s) <;> simp
  | _ => simp [versionOf]

theorem Denotes.unique (h : Denotes x v) (h' : Denotes x w) : v = w := by
  obtain ⟨s, rfl, hread⟩ := h
  obtain ⟨t, ht, hread'⟩ := h'
  obtain rfl := Value.string.inj ht
  exact Except.ok.inj
    ((Version.read_eq_ok_iff.mpr hread).symm.trans (Version.read_eq_ok_iff.mpr hread'))

/-- Anything else is refused: a text as no version, other values by their type. -/
theorem exists_error_of_versionOf (h : ∀ v, ¬Denotes x v) :
    ∃ e, versionOf name x = .error e ∧
      e.kind = if x.isString then .queryEval else .arityOrType name := by
  cases hx : versionOf name x with
  | ok v => exact absurd (versionOf_eq_ok_iff.mp hx) (h v)
  | error e =>
    refine ⟨e, rfl, ?_⟩
    cases x with
    | string s =>
      rw [versionOf] at hx
      cases hread : Version.read (Text.trim s) with
      | ok v => rw [hread] at hx; cases hx
      | error fault =>
        rw [hread] at hx
        obtain rfl := Except.error.inj hx
        rfl
    | _ =>
      obtain rfl := Except.error.inj hx
      rfl

theorem versionsOf_eq_ok_iff :
    versionsOf name (.sequence l) = .ok vs ↔ List.Forall₂ Denotes l vs := by
  simp only [versionsOf, Value.sequence?, Option.getD_some, mapM_eq_ok_iff, versionOf_eq_ok_iff]

section Extremes

/-- Of several versions one is picked that is related to all of them, and there is only one such. -/
structure Picks (pick : List Version → Option Version) (r : Version → Version → Prop) : Prop where
  antisymm : ∀ {v w}, r v w → r w v → v = w
  trans : ∀ {u v w}, r u v → r v w → r u w
  eq_some_iff : ∀ {vs v}, pick vs = some v ↔ v ∈ vs ∧ ∀ w ∈ vs, r v w
  exists_some : ∀ {vs}, vs ≠ [] → ∃ v, pick vs = some v

theorem picks_greatest : Picks Version.greatest? fun v w => w ≤ v where
  antisymm := fun h h' => le_antisymm h' h
  trans := fun h h' => h'.trans h
  eq_some_iff := by
    intro vs v
    rw [Version.greatest?_eq_max?]
    exact List.max?_eq_some_iff
  exists_some := by
    intro vs h
    rw [Version.greatest?_eq_max?]
    exact Option.isSome_iff_exists.mp (by simpa [List.isSome_max?_iff] using h)

theorem picks_least : Picks Version.least? fun v w => v ≤ w where
  antisymm := le_antisymm
  trans := le_trans
  eq_some_iff := by
    intro vs v
    rw [Version.least?_eq_min?]
    exact List.min?_eq_some_iff
  exists_some := by
    intro vs h
    rw [Version.least?_eq_min?]
    exact Option.isSome_iff_exists.mp (by simpa [List.isSome_min?_iff] using h)

variable {pick : List Version → Option Version} {r : Version → Version → Prop}

theorem Picks.eq_some_of_forall (h : Picks pick r) (hv : v ∈ vs) (hall : ∀ w ∈ vs, r v w) :
    pick vs = some v :=
  h.eq_some_iff.mpr ⟨hv, hall⟩

theorem Picks.append (h : Picks pick r) {ws : List Version} (hv : pick vs = some v)
    (hw : pick ws = some w) :
    pick (vs ++ ws) = pick [v, w] := by
  obtain ⟨u, hu⟩ := h.exists_some (List.cons_ne_nil v [w])
  obtain ⟨hmem, hall⟩ := h.eq_some_iff.mp hu
  obtain ⟨hvmem, hvall⟩ := h.eq_some_iff.mp hv
  obtain ⟨hwmem, hwall⟩ := h.eq_some_iff.mp hw
  rw [hu, h.eq_some_iff, List.forall_mem_append]
  refine ⟨?_, fun z hz => h.trans (hall v (by simp)) (hvall z hz),
    fun z hz => h.trans (hall w (by simp)) (hwall z hz)⟩
  rcases List.mem_pair.mp hmem with rfl | rfl
  · exact List.mem_append_left _ hvmem
  · exact List.mem_append_right _ hwmem

def picked (name : String) (pick : List Version → Option Version) (vs : List Version) :
    Except Error Value :=
  match pick vs with
  | some version => .ok (.string version.text)
  | none => .error (.functionFailed name "cannot pick from an empty list")

theorem pickVersion_sequence (name : String) (pick : List Version → Option Version)
    (l : List Value) :
    pickVersion name pick (.sequence l) = versionsOf name (.sequence l) >>= picked name pick := rfl

theorem pickVersion_of_denotes (h : List.Forall₂ Denotes l vs) :
    pickVersion name pick (.sequence l) = picked name pick vs := by
  rw [pickVersion_sequence, versionsOf_eq_ok_iff.mpr h]
  rfl

theorem pickVersion_eq_ok_iff : pickVersion name pick (.sequence l) = .ok y ↔
    ∃ vs v, List.Forall₂ Denotes l vs ∧ pick vs = some v ∧ y = .string v.text := by
  constructor
  · intro h
    cases hvs : versionsOf name (.sequence l) with
    | error e =>
      rw [pickVersion_sequence, hvs] at h
      cases h
    | ok vs =>
      have hdenotes := versionsOf_eq_ok_iff.mp hvs
      rw [pickVersion_of_denotes hdenotes, picked] at h
      cases hpick : pick vs with
      | none => rw [hpick] at h; cases h
      | some v =>
        rw [hpick] at h
        exact ⟨vs, v, hdenotes, hpick, (Except.ok.inj h).symm⟩
  · rintro ⟨vs, v, hvs, hpick, rfl⟩
    rw [pickVersion_of_denotes hvs, picked, hpick]

theorem Picks.exists_of_denotes (h : Picks pick r) (hl : l ≠ []) (hvs : List.Forall₂ Denotes l vs) :
    ∃ v, v.Valid ∧ pick vs = some v := by
  have hne : vs ≠ [] := by
    rintro rfl
    exact hl (List.forall₂_nil_right_iff.mp hvs)
  obtain ⟨v, hv⟩ := h.exists_some hne
  obtain ⟨_, -, _, -, hvalid, -⟩ := exists_left_of_mem hvs (h.eq_some_iff.mp hv).1
  exact ⟨v, hvalid, hv⟩

theorem Picks.pickVersion_append (h : Picks pick r) (name : String) (hl : l ≠ []) (hl' : l' ≠ []) :
    pickVersion name pick (.sequence (l ++ l')) = (do
      let x ← pickVersion name pick (.sequence l)
      let y ← pickVersion name pick (.sequence l')
      pickVersion name pick (.sequence [x, y])) := by
  have hsplit : versionsOf name (.sequence (l ++ l')) = (do
      let vs ← versionsOf name (.sequence l)
      let ws ← versionsOf name (.sequence l')
      return vs ++ ws) := List.mapM_append
  cases hvs : versionsOf name (.sequence l) with
  | error e =>
    rw [pickVersion_sequence, hsplit, pickVersion_sequence, hvs]
    rfl
  | ok vs =>
    have hdenotes := versionsOf_eq_ok_iff.mp hvs
    obtain ⟨v, hvalid, hv⟩ := h.exists_of_denotes hl hdenotes
    rw [pickVersion_eq_ok_iff.mpr ⟨vs, v, hdenotes, hv, rfl⟩, ok_bind]
    cases hws : versionsOf name (.sequence l') with
    | error e =>
      rw [pickVersion_sequence, hsplit, pickVersion_sequence, hvs, hws]
      rfl
    | ok ws =>
      have hdenotes' := versionsOf_eq_ok_iff.mp hws
      obtain ⟨w, hvalid', hw⟩ := h.exists_of_denotes hl' hdenotes'
      have hpair : List.Forall₂ Denotes [.string v.text, .string w.text] [v, w] :=
        .cons (denotes_text hvalid) (.cons (denotes_text hvalid') .nil)
      rw [pickVersion_eq_ok_iff.mpr ⟨ws, w, hdenotes', hw, rfl⟩, ok_bind,
        pickVersion_of_denotes hpair,
        pickVersion_sequence, hsplit, hvs, ok_bind, hws, ok_bind, pure_bind, picked, picked,
        h.append hv hw]

/-- A function on values gives the version that is related to all versions of a list, as its
text. -/
structure Extreme (f : Value → Except Error Value) (r : Version → Version → Prop) : Prop where
  /-- It goes well for lists of versions, unless they are empty. -/
  exists_ok_iff : ∀ l, (∃ y, f (.sequence l) = .ok y) ↔ l ≠ [] ∧ ∀ x ∈ l, ∃ v, Denotes x v
  /-- What it gives is the trimmed text of an item, whose version is related to those of all
  items. -/
  extreme : ∀ l y, f (.sequence l) = .ok y → ∃ s v, .string s ∈ l ∧ y = .string (Text.trim s) ∧
    Denotes (.string s) v ∧ ∀ x ∈ l, ∀ w, Denotes x w → r v w
  /-- The order of the items does not matter. -/
  perm : ∀ l l', l.Perm l' → ∀ y, f (.sequence l) = .ok y → f (.sequence l') = .ok y
  /-- A list may be taken in two parts; it also fails as they do. -/
  append : ∀ l l', l ≠ [] → l' ≠ [] → f (.sequence (l ++ l')) = do
    let x ← f (.sequence l)
    let y ← f (.sequence l')
    f (.sequence [x, y])
  /-- What it gives is given again, for the text as for the list of it. -/
  again : ∀ l y, f (.sequence l) = .ok y → f y = .ok y ∧ f (.sequence [y]) = .ok y

theorem Picks.extreme (h : Picks pick r) (name : String) : Extreme (pickVersion name pick) r where
  exists_ok_iff l := by
    constructor
    · rintro ⟨y, hy⟩
      obtain ⟨vs, v, hvs, hpick, -⟩ := pickVersion_eq_ok_iff.mp hy
      obtain ⟨x, hx, -⟩ := exists_left_of_mem hvs (h.eq_some_iff.mp hpick).1
      refine ⟨List.ne_nil_of_mem hx, fun x hx => ?_⟩
      obtain ⟨v, -, hv⟩ := exists_right_of_mem hvs hx
      exact ⟨v, hv⟩
    · rintro ⟨hne, hall⟩
      obtain ⟨vs, hvs⟩ := exists_forall₂ hall
      have hvsne : vs ≠ [] := fun hnil => hne (List.forall₂_nil_right_iff.mp (hnil ▸ hvs))
      obtain ⟨v, hv⟩ := h.exists_some hvsne
      exact ⟨_, pickVersion_eq_ok_iff.mpr ⟨vs, v, hvs, hv, rfl⟩⟩
  extreme l y hy := by
    obtain ⟨vs, v, hvs, hpick, rfl⟩ := pickVersion_eq_ok_iff.mp hy
    obtain ⟨hmem, hall⟩ := h.eq_some_iff.mp hpick
    obtain ⟨x, hx, hxv⟩ := exists_left_of_mem hvs hmem
    obtain ⟨s, rfl, -, htext⟩ := id hxv
    refine ⟨s, v, hx, by rw [htext], hxv, fun x hx w hw => ?_⟩
    obtain ⟨u, hu, hxu⟩ := exists_right_of_mem hvs hx
    exact hw.unique hxu ▸ hall u hu
  perm l l' hperm y hy := by
    obtain ⟨vs, v, hvs, hpick, rfl⟩ := pickVersion_eq_ok_iff.mp hy
    obtain ⟨ws, hws, hpermvs⟩ := List.perm_comp_forall₂ hperm.symm hvs
    refine pickVersion_eq_ok_iff.mpr ⟨ws, v, hws, ?_, rfl⟩
    obtain ⟨hmem, hall⟩ := h.eq_some_iff.mp hpick
    exact h.eq_some_of_forall (hpermvs.mem_iff.mpr hmem) fun w hw => hall w (hpermvs.mem_iff.mp hw)
  append _ _ hl hl' := h.pickVersion_append name hl hl'
  again l y hy := by
    obtain ⟨vs, v, hvs, hpick, rfl⟩ := pickVersion_eq_ok_iff.mp hy
    obtain ⟨_, -, _, -, hvalid, -⟩ := exists_left_of_mem hvs (h.eq_some_iff.mp hpick).1
    have hself : r v v := (h.eq_some_iff.mp hpick).2 v (h.eq_some_iff.mp hpick).1
    have hsingle : pick [v] = some v :=
      h.eq_some_of_forall (List.mem_singleton_self v) fun w hw => List.mem_singleton.mp hw ▸ hself
    have hlist : pickVersion name pick (.sequence [.string v.text]) = .ok (.string v.text) :=
      pickVersion_eq_ok_iff.mpr ⟨[v], v, .cons (denotes_text hvalid) .nil, hsingle, rfl⟩
    refine ⟨?_, hlist⟩
    have htext : pickVersion name pick (.string v.text) =
        (versionOf name (.string v.text)).map ([·]) >>= picked name pick := rfl
    rw [htext, versionOf_eq_ok_iff.mpr (denotes_text hvalid), Except.map, ok_bind, picked, hsingle]

theorem Extreme.congr {f g : Value → Except Error Value} (h : Extreme f r)
    (hlist : ∀ l, g (.sequence l) = f (.sequence l)) (htext : ∀ s, g (.string s) = f (.string s)) :
    Extreme g r where
  exists_ok_iff l := by simpa only [hlist] using h.exists_ok_iff l
  extreme l y hy := h.extreme l y (hlist l ▸ hy)
  perm l l' hperm y hy := by
    rw [hlist] at hy ⊢
    exact h.perm l l' hperm y hy
  append l l' hl hl' := by simpa only [hlist] using h.append l l' hl hl'
  again l y hy := by
    rw [hlist] at hy
    obtain ⟨s, -, -, rfl, -⟩ := h.extreme l y hy
    rw [htext, hlist]
    exact h.again l _ hy

theorem Denotes.trim {s : String} (h : Denotes (.string s) v) :
    Denotes (.string (Text.trim s)) v := by
  obtain ⟨t, ht, hvalid, htext⟩ := h
  obtain rfl := Value.string.inj ht
  exact htext ▸ denotes_text hvalid

theorem Picks.extreme_answer (h : Picks pick r) (name : String)
    (hget : Registry.builtin.get? name =
    some (unary (.oneOf [.list, .string]) (pickVersion name pick))) (c : Context) :
    Extreme (fun x => Registry.builtin.answer name [x] c) r :=
  (h.extreme name).congr (fun _ => Registry.answer_unary hget rfl c) fun _ =>
    Registry.answer_unary hget rfl c

/-- The greatest of several versions is at least every other one in the order of versions, and the
least at most. They are there just for lists of versions that are not empty, they are the texts of
items, and they depend neither on the order of the items nor on taking a list in two parts. The
least is never above the greatest. -/
theorem greatest_least_version (c : Context) :
    Extreme (fun x => Registry.builtin.answer "semver_max" [x] c) (fun v w => w ≤ v) ∧
    Extreme (fun x => Registry.builtin.answer "semver_min" [x] c) (fun v w => v ≤ w) ∧
    ∀ l x y, Registry.builtin.answer "semver_min" [.sequence l] c = .ok x →
      Registry.builtin.answer "semver_max" [.sequence l] c = .ok y →
      ∃ v w, Denotes x v ∧ Denotes y w ∧ v ≤ w := by
  have hmax := picks_greatest.extreme_answer "semver_max"
    (Registry.get?_builtin (by simp [versionFunctions])) c
  have hmin :=
    picks_least.extreme_answer "semver_min" (Registry.get?_builtin (by simp [versionFunctions])) c
  refine ⟨hmax, hmin, fun l x y hx hy => ?_⟩
  obtain ⟨s, v, -, rfl, hv, hall⟩ := hmin.extreme l x hx
  obtain ⟨t, w, ht, rfl, hw, -⟩ := hmax.extreme l y hy
  exact ⟨v, w, hv.trim, hw.trim, hall _ ht w hw⟩

/-- A release with build metadata is above the one without, and both are above a pre-release. -/
theorem greatest_least_version_builds :
    ∃ v w, Denotes (.string "1.0.0-rc.1") v ∧ Denotes (.string "1.0.0+b") w ∧ v ≤ w :=
  (greatest_least_version
    { environment := Environment.capture default [], network := .script [] }).2.2
    [.string " 1.0.0+b", .string "1.0.0-rc.1", .string "1.0.0"] _ _ rfl rfl

end Extremes

section Components

def Component.function : Component → String
  | .major => "semver_major"
  | .minor => "semver_minor"
  | .patch => "semver_patch"

def Component.listFunction (k : Component) : String := k.function ++ "_list"

def Component.answer (k : Component) (c : Context) (x : Value) : Except Error Value :=
  Registry.builtin.answer k.function [x] c

def Component.answerList (k : Component) (c : Context) (l : List Value) : Except Error Value :=
  Registry.builtin.answer k.listFunction [.sequence l] c

variable {k : Component} {c : Context}

theorem get?_function (k : Component) :
    Registry.builtin.get? k.function = some (unary .string (component k.function k)) := by
  refine Registry.get?_builtin ?_
  cases k <;> simp [versionFunctions, Component.function]

theorem get?_listFunction (k : Component) :
    Registry.builtin.get? k.listFunction = some (unary .list (components k.listFunction k)) := by
  refine Registry.get?_builtin ?_
  cases k <;> simp [versionFunctions, Component.function, Component.listFunction]

theorem component_eq_ok_iff : component name k x = .ok y ↔ ∃ v, Denotes x v ∧ y = k.value v := by
  have hread : ∀ v, Denotes x v ↔ versionOf name x = .ok v := fun v => versionOf_eq_ok_iff.symm
  simp only [hread]
  rw [component]
  cases versionOf name x <;> simp [Except.map, eq_comm]

theorem isString_of_answer (h : k.answer c x = .ok y) : x.isString = true := by
  have hx := Registry.accepts_of_answer (get?_function k) h
  cases x with
  | string s => rfl
  | _ => cases hx

theorem answer_eq_ok_iff : k.answer c x = .ok y ↔ ∃ v, Denotes x v ∧ y = k.value v := by
  constructor
  · intro h
    have hstring := isString_of_answer h
    cases x with
    | string s =>
      rw [Component.answer, Registry.answer_unary (get?_function k) rfl] at h
      exact component_eq_ok_iff.mp h
    | _ => cases hstring
  · rintro ⟨v, hv, rfl⟩
    obtain ⟨s, rfl, -⟩ := id hv
    rw [Component.answer, Registry.answer_unary (get?_function k) rfl]
    exact component_eq_ok_iff.mpr ⟨v, hv, rfl⟩

theorem answerList_eq (k : Component) (c : Context) (l : List Value) :
    k.answerList c l = (versionsOf k.listFunction (.sequence l)).map fun vs =>
      .sequence (vs.map k.value) :=
  Registry.answer_unary (get?_listFunction k) rfl c

theorem answerList_eq_ok_iff : k.answerList c l = .ok y ↔
    ∃ ys, y = .sequence ys ∧ List.Forall₂ (fun x z => k.answer c x = .ok z) l ys := by
  have hread : (∃ vs, List.Forall₂ Denotes l vs ∧ y = .sequence (vs.map k.value)) ↔
    k.answerList c l = .ok y := by
    have hversions : ∀ vs, List.Forall₂ Denotes l vs ↔
      versionsOf k.listFunction (.sequence l) = .ok vs :=
      fun vs => versionsOf_eq_ok_iff.symm
    simp only [hversions, answerList_eq]
    cases versionsOf k.listFunction (.sequence l) <;> simp [Except.map, eq_comm]
  have hvalues : ∀ vs, List.Forall₂ Denotes l vs →
      List.Forall₂ (fun x z => k.answer c x = .ok z) l (vs.map k.value) := fun vs hvs =>
    List.forall₂_map_right_iff.mpr (hvs.imp fun x v hv => answer_eq_ok_iff.mpr ⟨v, hv, rfl⟩)
  rw [← hread]
  constructor
  · rintro ⟨vs, hvs, rfl⟩
    exact ⟨_, rfl, hvalues vs hvs⟩
  · rintro ⟨ys, rfl, hys⟩
    have hall : ∀ x ∈ l, ∃ v, Denotes x v := fun x hx => by
      obtain ⟨z, -, hz⟩ := exists_right_of_mem hys hx
      exact (answer_eq_ok_iff.mp hz).imp fun v hv => hv.1
    obtain ⟨vs, hvs⟩ := exists_forall₂ hall
    have heq := (mapM_eq_ok_iff.mpr hys).symm.trans (mapM_eq_ok_iff.mpr (hvalues vs hvs))
    exact ⟨vs, hvs, congrArg Value.sequence (Except.ok.inj heq)⟩

theorem exists_answerList_iff :
    (∃ y, k.answerList c l = .ok y) ↔ ∀ x ∈ l, x.isString = true ∧ ∃ z, k.answer c x = .ok z := by
  simp only [answerList_eq_ok_iff]
  constructor
  · rintro ⟨y, ys, rfl, hys⟩ x hx
    obtain ⟨z, -, hz⟩ := exists_right_of_mem hys hx
    exact ⟨isString_of_answer hz, z, hz⟩
  · intro hall
    obtain ⟨ys, hys⟩ := exists_mapM_of_forall fun x hx => (hall x hx).2
    exact ⟨_, ys, rfl, mapM_eq_ok_iff.mp hys⟩

/-- A list fails as its first item that is no version does, whatever stands behind. -/
theorem exists_error_of_answerList {before behind : List Value}
    (hbefore : ∀ z ∈ before, ∃ w, k.answer c z = .ok w)
    (hx : ∀ w, k.answer c x ≠ .ok w) : ∃ e, k.answerList c (before ++ x :: behind) = .error e ∧
      e.kind = if x.isString then .queryEval else .arityOrType k.listFunction := by
  have hgood : ∀ z ∈ before, ∃ v, versionOf k.listFunction z = .ok v := fun z hz => by
    obtain ⟨w, hw⟩ := hbefore z hz
    exact (answer_eq_ok_iff.mp hw).imp fun v hv => versionOf_eq_ok_iff.mpr hv.1
  obtain ⟨vs, hvs⟩ := exists_mapM_of_forall hgood
  have hbad : ∀ v, ¬Denotes x v := fun v hv => hx _ (answer_eq_ok_iff.mpr ⟨v, hv, rfl⟩)
  obtain ⟨e, he, hkind⟩ := exists_error_of_versionOf hbad
  have hfail : versionsOf k.listFunction (.sequence (before ++ x :: behind)) = .error e :=
    mapM_eq_error_iff.mpr ⟨before, x, behind, vs, rfl, hvs, he⟩
  refine ⟨e, ?_, hkind⟩
  rw [answerList_eq, hfail]
  rfl

def core (v : Version) : Version := ⟨v.major, v.minor, v.patch, [], []⟩

theorem value_core (k : Component) (v : Version) :
    k.value (core v) = k.value v := by cases k <;> rfl

theorem valid_core (h : v.Valid) : (core v).Valid := ⟨h.major, h.minor, h.patch, nofun, nofun⟩

theorem toChars_core_isPrefix (v : Version) : (core v).toChars <+: v.toChars := by
  simp [Version.toChars_eq, core, Version.marked, List.prefix_append]

theorem text_core (v : Version) :
    (core v).text = String.ofList (Nat.toDigits 10 (Component.major.of v)) ++ "." ++
    String.ofList (Nat.toDigits 10 (Component.minor.of v)) ++ "." ++
    String.ofList (Nat.toDigits 10 (Component.patch.of v)) := by
  rw [← String.toList_inj]
  simp [Version.text, Version.toChars, core, Component.of]

/-- A function that reads a number off each of several versions goes well when the one that reads it
off a single version goes well for every item, and then gives what that gives. If not, the first
item that is no version tells how it fails. The three numbers of a version, with dots between them,
are a version with the same numbers, and the first part of the text they are read off. -/
theorem component_lists_agree (c : Context) :
    (∀ (k : Component) l, (∃ y, k.answerList c l = .ok y) ↔
      ∀ x ∈ l, x.isString = true ∧ ∃ z, k.answer c x = .ok z) ∧
    (∀ (k : Component) l y, k.answerList c l = .ok y →
      ∃ ys, y = .sequence ys ∧ List.Forall₂ (fun x z => k.answer c x = .ok z) l ys) ∧
    (∀ (k : Component) before x behind, (∀ z ∈ before, ∃ w, k.answer c z = .ok w) →
      (∀ w, k.answer c x ≠ .ok w) →
      ∃ e, k.answerList c (before ++ x :: behind) = .error e ∧
        e.kind = if x.isString then .queryEval else .arityOrType k.listFunction) ∧
    ∀ (k : Component) s y, k.answer c (.string s) = .ok y → ∃ major minor patch,
      Component.major.answer c (.string s) = .ok (.string major) ∧
      Component.minor.answer c (.string s) = .ok (.string minor) ∧
      Component.patch.answer c (.string s) = .ok (.string patch) ∧
      (∃ v : Version, v.Valid ∧ v.text = major ++ "." ++ minor ++ "." ++ patch) ∧
      (∀ j : Component,
      j.answer c (.string (major ++ "." ++ minor ++ "." ++ patch)) = j.answer c (.string s)) ∧
      (major ++ "." ++ minor ++ "." ++ patch).toList <+: (Text.trim s).toList := by
  refine ⟨fun k l => exists_answerList_iff, fun k l y h => answerList_eq_ok_iff.mp h,
    fun k before x behind hbefore hx => exists_error_of_answerList hbefore hx, fun k s y h => ?_⟩
  obtain ⟨v, hv, -⟩ := answer_eq_ok_iff.mp h
  obtain ⟨t, ht, hvalid, htext⟩ := id hv
  obtain rfl := Value.string.inj ht
  have hanswer : ∀ j : Component, j.answer c (.string s) = .ok (j.value v) := fun j =>
    answer_eq_ok_iff.mpr ⟨v, hv, rfl⟩
  refine ⟨_, _, _, hanswer .major, hanswer .minor, hanswer .patch,
    ⟨core v, valid_core hvalid, text_core v⟩,
    fun j => ?_, ?_⟩
  · rw [hanswer, ← text_core, answer_eq_ok_iff]
    exact ⟨core v, denotes_text (valid_core hvalid), (value_core j v).symm⟩
  · rw [← text_core, ← htext, Version.text, Version.text, String.toList_ofList,
      String.toList_ofList]
    exact toChars_core_isPrefix v

/-- A sequence in which the first item is a version, the second is none, and a number follows. -/
theorem component_lists_agree_mixed :
    (∃ e, Component.minor.answerList
      { environment := Environment.capture default [], network := .script [] }
      ([.string " 1.20.3-rc.1 "] ++ .string "1.20" :: [.int 3]) = .error e ∧ e.kind = .queryEval) ∧
    "1.20.3".toList <+: (Text.trim " 1.20.3-rc.1 ").toList := by
  have hagree := component_lists_agree
    { environment := Environment.capture default [], network := .script [] }
  refine ⟨hagree.2.2.1 .minor [.string " 1.20.3-rc.1 "] (.string "1.20") [.int 3]
    (fun z hz => ?_) fun w hw => ?_, ?_⟩
  · obtain rfl := List.mem_singleton.mp hz
    exact ⟨.string "20", rfl⟩
  · cases hw
  · obtain ⟨_, _, _, hmajor, hminor, hpatch, -, -, hprefix⟩ :=
      hagree.2.2.2 .minor " 1.20.3-rc.1 " (.string "20") rfl
    cases hmajor
    cases hminor
    cases hpatch
    exact hprefix

end Components

end Builtin
end Manifest
