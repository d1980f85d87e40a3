import Manifest.Builtin.License
import Manifest.Proofs.Json.Outline
import Manifest.Proofs.List.MapM

/-! Payloads that tell the details of a license: their fields, how each is read, and the defects
that leave nothing to tell. -/
namespace Manifest.Builtin.LicenseDetails

open Json.Outline (string? bool? int? denoted?)

section Fields

variable {α : Type} {names : List String} {j y : Payload} {f : Option Payload}
  {fs : List (Option Payload)} {i : Nat}
  {name : String} {R : Payload → α → Prop} {a default : α}

/-- What has a field name: a member of an object, or what stands in an array at the place of the
name. -/
def Given (names : List String) (j : Payload) (name : String) (y : Payload) : Prop :=
  match j with
  | .object members => ∃ key, (key, y) ∈ members ∧ denoted? key = some name
  | .array items => ∃ i : Nat, names[i]? = some name ∧ items[i]? = some y
  | _ => False

/-- Objects whose keys are texts and have no known one twice, and arrays with no more items than
there are names. -/
inductive Fielded (names : List String) : Payload → Prop
  | object {members : List (List Char × Payload)}
    (hkeys : ∀ m ∈ members, ∃ k, denoted? m.1 = some k)
      (honce : ∀ name ∈ names, (members.filter fun m => denoted? m.1 = some name).length ≤ 1) :
      Fielded names (.object members)
  | array {items : List Payload} (h : items.length ≤ names.length) : Fielded names (.array items)

structure Required (names : List String) (j : Payload) (name : String) (R : Payload → α → Prop)
    (a : α) : Prop where
  given : ∃ y, Given names j name y
  read : ∀ y, Given names j name y → R y a

structure Defaulted (names : List String) (j : Payload) (name : String) (R : Payload → α → Prop)
    (default a : α) :
    Prop where
  read : ∀ y, Given names j name y → R y a
  missing : (∀ y, ¬Given names j name y) → a = default

def Keyed (members : List (List Char × Payload)) (named : List (String × Payload)) : Prop :=
  List.Forall₂ (fun m e => denoted? m.1 = some e.1 ∧ e.2 = m.2) members named

theorem mapM_members_eq_some_iff {members : List (List Char × Payload)}
    {named : List (String × Payload)} :
    (members.mapM fun (key, j) => (denoted? key).map fun k => (k, j)) = some named ↔
      Keyed members named := by
  have hread : ∀ (m : List Char × Payload) (e : String × Payload),
      ((denoted? m.1).map fun k => (k, m.2)) = some e ↔ denoted? m.1 = some e.1 ∧ e.2 = m.2 := by
    rintro m ⟨k, j⟩
    simp [eq_comm]
  rw [mapM_eq_some_iff]
  exact ⟨fun h => h.imp fun m e => (hread m e).mp, fun h => h.imp fun m e => (hread m e).mpr⟩

theorem Keyed.length_filter {members : List (List Char × Payload)} {named : List (String × Payload)}
    (h : Keyed members named) (name : String) :
    (named.filter fun e => e.1 = name).length =
      (members.filter fun m => denoted? m.1 = some name).length := by
  induction h with
  | nil => rfl
  | @cons m e members named hfirst _ ih =>
    rw [List.filter_cons, List.filter_cons, hfirst.1]
    by_cases hname : e.1 = name
    · simp [hname, ih]
    · simp [hname, ih]

theorem Keyed.mem_iff {members : List (List Char × Payload)} {named : List (String × Payload)}
    (h : Keyed members named) :
    (name, y) ∈ named ↔ ∃ key, (key, y) ∈ members ∧ denoted? key = some name := by
  constructor
  · intro hmem
    obtain ⟨⟨key, z⟩, hz, hkey, heq⟩ := exists_left_of_mem h hmem
    obtain rfl : y = z := heq
    exact ⟨key, hz, hkey⟩
  · rintro ⟨key, hmem, hkey⟩
    obtain ⟨⟨k, z⟩, hz, hk, heq⟩ := exists_right_of_mem h hmem
    obtain rfl : k = name := Option.some.inj (hk.symm.trans hkey)
    obtain rfl : z = y := heq
    exact hz

theorem fields?_object_eq_some_iff {members : List (List Char × Payload)} :
    fields? names (.object members) = some fs ↔ ∃ named, Keyed members named ∧
      (∀ name ∈ names, (named.filter fun e => e.1 = name).length ≤ 1) ∧
      fs = names.map fun n => Assoc.find? n named := by
  simp only [fields?, Option.bind_eq_bind, Option.bind_eq_some_iff, mapM_members_eq_some_iff]
  refine exists_congr fun named => and_congr_right fun _ => ?_
  have hany : (names.any fun n => decide (1 < (named.filter fun e => e.1 = n).length)) = true ↔
      ¬∀ name ∈ names, (named.filter fun e => e.1 = name).length ≤ 1 := by
    simp
  split
  · rename_i h
    simp [hany.mp h]
  · rename_i h
    simp only [hany, not_not] at h
    rw [Option.some.injEq]
    exact ⟨fun heq => ⟨h, heq.symm⟩, fun heq => heq.2.symm⟩

theorem fields?_array_eq_some_iff {items : List Payload} :
    fields? names (.array items) = some fs ↔ items.length ≤ names.length ∧
      fs = items.map some ++ List.replicate (names.length - items.length) none := by
  rw [fields?]
  split <;> simp [eq_comm] <;> omega

theorem given_iff (hnames : names.Nodup) (h : fields? names j = some fs)
    (hname : names[i]? = some name)
    (hf : fs[i]? = some f) : Given names j name y ↔ f = some y := by
  cases j with
  | word w => cases h
  | string s => cases h
  | array items =>
    obtain ⟨hlength, rfl⟩ := fields?_array_eq_some_iff.mp h
    have hitem : Given names (.array items) name y ↔ items[i]? = some y := by
      constructor
      · rintro ⟨k, hk, hy⟩
        obtain rfl : k = i :=
          (List.getElem?_inj (List.getElem?_eq_some_iff.mp hk).1 hnames).mp (hk.trans hname.symm)
        exact hy
      · exact fun hy => ⟨i, hname, hy⟩
    rw [hitem]
    by_cases hi : i < items.length
    · rw [List.getElem?_append_left (by simpa using hi), List.getElem?_map,
        List.getElem?_eq_getElem hi,
        Option.map_some, Option.some.injEq] at hf
      rw [List.getElem?_eq_getElem hi, hf]
    · rw [List.getElem?_append_right (by simpa using hi), List.getElem?_replicate] at hf
      split at hf
      · obtain rfl := Option.some.inj hf
        simp [List.getElem?_eq_none (Nat.le_of_not_lt hi)]
      · cases hf
  | object members =>
    obtain ⟨named, hnamed, honce, rfl⟩ := fields?_object_eq_some_iff.mp h
    rw [List.getElem?_map, hname, Option.map_some, Option.some.injEq] at hf
    subst hf
    have hmem : name ∈ names := List.mem_of_getElem? hname
    rw [Assoc.find?_eq_some_iff_mem (honce name hmem), hnamed.mem_iff]
    rfl

theorem length_fields (h : fields? names j = some fs) : fs.length = names.length := by
  cases j with
  | word w => cases h
  | string s => cases h
  | array items =>
    obtain ⟨hlength, rfl⟩ := fields?_array_eq_some_iff.mp h
    simp [hlength]
  | object members =>
    obtain ⟨named, -, -, rfl⟩ := fields?_object_eq_some_iff.mp h
    simp

theorem exists_fields_iff : (∃ fs, fields? names j = some fs) ↔ Fielded names j := by
  constructor
  · rintro ⟨fs, h⟩
    cases j with
    | word w => cases h
    | string s => cases h
    | array items => exact .array (fields?_array_eq_some_iff.mp h).1
    | object members =>
      obtain ⟨named, hnamed, honce, -⟩ := fields?_object_eq_some_iff.mp h
      refine .object (fun m hm => ?_) fun name hname => hnamed.length_filter name ▸ honce name hname
      obtain ⟨e, -, he, -⟩ := exists_right_of_mem hnamed hm
      exact ⟨e.1, he⟩
  · rintro (⟨hkeys, honce⟩ | hlength)
    · obtain ⟨named, hnamed⟩ : ∃ named, Keyed _ named := exists_forall₂ fun m hm => by
        obtain ⟨k, hk⟩ := hkeys m hm
        exact ⟨(k, m.2), hk, rfl⟩
      exact ⟨_, fields?_object_eq_some_iff.mpr ⟨named, hnamed, fun name hname =>
        (hnamed.length_filter name).symm ▸ honce name hname, rfl⟩⟩
    · exact ⟨_, fields?_array_eq_some_iff.mpr ⟨hlength, rfl⟩⟩

theorem required_iff (hgiven : ∀ y, Given names j name y ↔ f = some y) :
    Required names j name R a ↔ ∃ y, f = some y ∧ R y a := by
  constructor
  · rintro ⟨⟨y, hy⟩, hread⟩
    exact ⟨y, (hgiven y).mp hy, hread y hy⟩
  · rintro ⟨y, rfl, hy⟩
    refine ⟨⟨y, (hgiven y).mpr rfl⟩, fun z hz => ?_⟩
    obtain rfl := Option.some.inj ((hgiven z).mp hz)
    exact hy

theorem defaulted_iff (hgiven : ∀ y, Given names j name y ↔ f = some y) {read : Payload → Option α}
    (hread : ∀ y, read y = some a ↔ R y a) :
    Defaulted names j name R default a ↔ optional read default f = some a := by
  constructor
  · rintro ⟨hR, hmissing⟩
    cases f with
    | none => exact congrArg some (hmissing fun y hy => nomatch (hgiven y).mp hy).symm
    | some y => exact (hread y).mpr (hR y ((hgiven y).mpr rfl))
  · intro h
    refine ⟨fun y hy => ?_, fun hnone => ?_⟩
    · rw [(hgiven y).mp hy] at h
      exact (hread y).mp h
    · cases f with
      | none => exact (Option.some.inj h).symm
      | some y => exact absurd ((hgiven y).mpr rfl) (hnone y)

end Fields

section Readings

variable {j y : Payload} {items : List Payload} {r : CrossReference} {refs : List CrossReference}
  {d : LicenseDetails}

def IsString (y : Payload) (s : String) : Prop := ∃ body, y = .string body ∧ denoted? body = some s

def IsFlag (y : Payload) (b : Bool) : Prop :=
  y = .word (if b then ['t', 'r', 'u', 'e'] else ['f', 'a', 'l', 's', 'e'])

/-- An integer of 64 bits, written without a fraction or an exponent. -/
def IsInteger (y : Payload) (n : Int) : Prop :=
  y = .word (Json.intText n) ∧ -0x8000000000000000 ≤ n ∧ n < 0x8000000000000000

theorem order?_eq_some_iff {n : Int} : order? y = some n ↔ IsInteger y n := by
  rw [order?, Option.filter_eq_some_iff, Json.Outline.int?_eq_some_iff, IsInteger,
    decide_eq_true_iff]
  constructor
  · rintro ⟨⟨hy, -, -⟩, hrange⟩
    exact ⟨hy, hrange⟩
  · rintro ⟨hy, hmin, hmax⟩
    exact ⟨⟨hy, hmin, by omega⟩, hmin, hmax⟩

def referenceFields : List String := ["url", "isValid", "isLive", "order"]

def detailFields : List String := ["name", "licenseText", "crossRef"]

/-- How a reference is told: missing flags are false, a missing order is 0. -/
structure ReferenceOf (j : Payload) (r : CrossReference) : Prop where
  fielded : Fielded referenceFields j
  url : Required referenceFields j "url" IsString r.url
  isValid : Defaulted referenceFields j "isValid" IsFlag false r.isValid
  isLive : Defaulted referenceFields j "isLive" IsFlag false r.isLive
  order : Defaulted referenceFields j "order" IsInteger 0 r.order

def ReferencesOf (y : Payload) (refs : List CrossReference) : Prop :=
  ∃ items, y = .array items ∧ List.Forall₂ ReferenceOf items refs

structure DetailsOf (j : Payload) (d : LicenseDetails) : Prop where
  fielded : Fielded detailFields j
  name : Required detailFields j "name" IsString d.name
  text : Required detailFields j "licenseText" IsString d.text
  references : Defaulted detailFields j "crossRef" ReferencesOf [] d.references

theorem referenceOf_iff {f₀ f₁ f₂ f₃ : Option Payload}
    (h : fields? referenceFields j = some [f₀, f₁, f₂, f₃]) :
    ReferenceOf j r ↔
      (∃ y, f₀ = some y ∧ IsString y r.url) ∧ optional bool? false f₁ = some r.isValid ∧
      optional bool? false f₂ = some r.isLive ∧ optional order? 0 f₃ = some r.order := by
  have hnodup : referenceFields.Nodup := by decide
  have hflag : ∀ b y, bool? y = some b ↔ IsFlag y b := fun b y => Json.Outline.bool?_eq_some_iff
  rw [← required_iff fun y => given_iff hnodup h (i := 0) rfl rfl,
    ← defaulted_iff (fun y => given_iff hnodup h (i := 1) rfl rfl) (hflag _),
    ← defaulted_iff (fun y => given_iff hnodup h (i := 2) rfl rfl) (hflag _),
    ← defaulted_iff (fun y => given_iff hnodup h (i := 3) rfl rfl) fun y => order?_eq_some_iff]
  exact ⟨fun h => ⟨h.url, h.isValid, h.isLive, h.order⟩,
    fun h' => ⟨exists_fields_iff.mp ⟨_, h⟩, h'.1, h'.2.1, h'.2.2.1, h'.2.2.2⟩⟩

theorem reference?_eq_some_iff : reference? j = some r ↔ ReferenceOf j r := by
  constructor
  · intro h
    unfold reference? at h
    split at h
    · rename_i url isValid isLive order hfs
      simp only [Option.bind_eq_bind, Option.bind_eq_some_iff, Option.pure_def] at h
      obtain ⟨u, hu, v, hv, l, hl, o, ho, heq⟩ := h
      obtain rfl := Option.some.inj heq
      exact (referenceOf_iff hfs).mpr
        ⟨⟨url, rfl, Json.Outline.string?_eq_some_iff.mp hu⟩, hv, hl, ho⟩
    · cases h
  · intro h
    obtain ⟨fs, hfs⟩ := exists_fields_iff.mpr h.fielded
    obtain ⟨f₀, f₁, f₂, f₃, rfl⟩ := List.length_eq_four.mp (length_fields hfs)
    obtain ⟨⟨url, rfl, hurl⟩, hv, hl, ho⟩ := (referenceOf_iff hfs).mp h
    rw [referenceFields] at hfs
    simp only [reference?, hfs, Json.Outline.string?_eq_some_iff.mpr hurl, hv, hl, ho,
      Option.bind_eq_bind,
      Option.bind_some, Option.pure_def]

theorem references?_eq_some_iff : references? y = some refs ↔ ReferencesOf y refs := by
  cases y with
  | array items =>
    simp only [references?, mapM_eq_some_iff, reference?_eq_some_iff, ReferencesOf,
      Json.Outline.array.injEq,
      exists_eq_left']
  | _ => simp [references?, ReferencesOf]

theorem detailsOf_iff {f₀ f₁ f₂ : Option Payload} (h : fields? detailFields j = some [f₀, f₁, f₂]) :
    DetailsOf j d ↔
      (∃ y, f₀ = some y ∧ IsString y d.name) ∧ (∃ y, f₁ = some y ∧ IsString y d.text) ∧
      optional references? [] f₂ = some d.references := by
  have hnodup : detailFields.Nodup := by decide
  rw [← required_iff fun y => given_iff hnodup h (i := 0) rfl rfl,
    ← required_iff fun y => given_iff hnodup h (i := 1) rfl rfl,
    ← defaulted_iff (fun y => given_iff hnodup h (i := 2) rfl rfl) fun y => references?_eq_some_iff]
  exact ⟨fun h => ⟨h.name, h.text, h.references⟩, fun h' =>
    ⟨exists_fields_iff.mp ⟨_, h⟩, h'.1, h'.2.1, h'.2.2⟩⟩

theorem ofPayload?_eq_some_iff : ofPayload? j = some d ↔ DetailsOf j d := by
  constructor
  · intro h
    unfold ofPayload? at h
    split at h
    · rename_i name text references hfs
      simp only [Option.bind_eq_bind, Option.bind_eq_some_iff, Option.pure_def] at h
      obtain ⟨n, hn, t, ht, rs, hrs, heq⟩ := h
      obtain rfl := Option.some.inj heq
      exact (detailsOf_iff hfs).mpr ⟨⟨name, rfl, Json.Outline.string?_eq_some_iff.mp hn⟩,
        ⟨text, rfl, Json.Outline.string?_eq_some_iff.mp ht⟩, hrs⟩
    · cases h
  · intro h
    obtain ⟨fs, hfs⟩ := exists_fields_iff.mpr h.fielded
    obtain ⟨f₀, f₁, f₂, rfl⟩ := List.length_eq_three.mp (length_fields hfs)
    obtain ⟨⟨name, rfl, hname⟩, ⟨text, rfl, htext⟩, hrefs⟩ := (detailsOf_iff hfs).mp h
    rw [detailFields] at hfs
    simp only [ofPayload?, hfs, Json.Outline.string?_eq_some_iff.mpr hname,
      Json.Outline.string?_eq_some_iff.mpr htext, hrefs, Option.bind_eq_bind, Option.bind_some,
      Option.pure_def]

end Readings

section Defects

variable {j : Payload} {d : LicenseDetails} {r : CrossReference}
  {fields : List (List Char × Payload)}

/-- An object that tells no reference. -/
inductive DefectiveReference (fields : List (List Char × Payload)) : Prop
  | url (h : ∀ y s, Given referenceFields (.object fields) "url" y → ¬IsString y s)
  | flag {name : String} {y : Payload} (hname : name = "isValid" ∨ name = "isLive")
      (hy : Given referenceFields (.object fields) name y) (h : ∀ b, ¬IsFlag y b)
  | order {y : Payload} (hy : Given referenceFields (.object fields) "order" y)
    (h : ∀ n, ¬IsInteger y n)

/-- An object that tells no license: one of the two texts is not there, or a reference is
defective. -/
inductive Defective : Payload → Prop
  | text {fields : List (List Char × Payload)} {name : String}
    (hname : name = "name" ∨ name = "licenseText")
      (h : ∀ y s, Given detailFields (.object fields) name y → ¬IsString y s) :
      Defective (.object fields)
  | reference {fields members : List (List Char × Payload)} {items : List Payload}
      (hitems : Given detailFields (.object fields) "crossRef" (.array items))
      (hmem : .object members ∈ items)
      (h : DefectiveReference members) : Defective (.object fields)

theorem DefectiveReference.not_referenceOf (h : DefectiveReference fields) :
    ¬ReferenceOf (.object fields) r := by
  intro hr
  cases h with
  | url h =>
    obtain ⟨y, hy⟩ := hr.url.given
    exact h y _ hy (hr.url.read y hy)
  | flag hname hy h =>
    rcases hname with rfl | rfl
    · exact h _ (hr.isValid.read _ hy)
    · exact h _ (hr.isLive.read _ hy)
  | order hy h => exact h _ (hr.order.read _ hy)

theorem Defective.not_detailsOf (h : Defective j) : ¬DetailsOf j d := by
  intro hd
  cases h with
  | text hname h =>
    rcases hname with rfl | rfl
    · obtain ⟨y, hy⟩ := hd.name.given
      exact h y _ hy (hd.name.read y hy)
    · obtain ⟨y, hy⟩ := hd.text.given
      exact h y _ hy (hd.text.read y hy)
  | reference hitems hmem h =>
    obtain ⟨items, heq, hall⟩ := hd.references.read _ hitems
    obtain rfl := Json.Outline.array.inj heq
    obtain ⟨r, -, hr⟩ := exists_right_of_mem hall hmem
    exact h.not_referenceOf hr

end Defects

end Manifest.Builtin.LicenseDetails
