import Manifest.Proofs.Builtin.Package
import Manifest.Proofs.Builtin.Payload
import Manifest.Proofs.Function.Registry

/-! Records of licenses: what in a payload they are made of, and that no record is made of a payload
with a defect anywhere in it. -/
namespace Manifest.Builtin

namespace LicenseDetails

section Listing

/-- The references that a record lists: those that are valid and live, in ascending order, equal
ones as they stand. -/
structure Listing (all refs : List CrossReference) : Prop where
  perm : refs.Perm (all.filter fun r => r.isValid && r.isLive)
  ascending : refs.Pairwise fun a b => a.order ≤ b.order
  stable : ∀ n, (refs.filter fun r => r.order = n) =
    (all.filter fun r => r.isValid && r.isLive).filter fun r => r.order = n

theorem listing_usable (d : LicenseDetails) : Listing d.references d.usable := by
  have htrans : ∀ a b c : CrossReference, decide (a.order ≤ b.order) = true →
    decide (b.order ≤ c.order) = true →
      decide (a.order ≤ c.order) = true := by
    simp only [decide_eq_true_eq]
    exact fun a b c => Int.le_trans
  have htotal : ∀ a b : CrossReference,
    (decide (a.order ≤ b.order) || decide (b.order ≤ a.order)) = true := by
    simp only [Bool.or_eq_true, decide_eq_true_eq]
    exact fun a b => Int.le_total a.order b.order
  have hperm : d.usable.Perm (d.references.filter fun r => r.isValid && r.isLive) :=
    List.mergeSort_perm ..
  refine ⟨hperm, ?_, fun n => ?_⟩
  · exact (List.pairwise_mergeSort htrans htotal _).imp fun h => of_decide_eq_true h
  · -- Equal ones are in order as they stand, so that sorting keeps them so.
    have hequal :
      ((d.references.filter fun r => r.isValid && r.isLive).filter fun r => r.order = n).Pairwise
        fun a b => decide (a.order ≤ b.order) = true := by
      refine List.pairwise_of_forall_mem_list fun a ha b hb => decide_eq_true ?_
      have ha := of_decide_eq_true (List.mem_filter.mp ha).2
      have hb := of_decide_eq_true (List.mem_filter.mp hb).2
      omega
    have hsub :=
      (List.sublist_mergeSort htrans htotal hequal List.filter_sublist).filter fun r => r.order = n
    rw [List.filter_filter] at hsub
    simp only [Bool.and_self] at hsub
    exact (hsub.eq_of_length (hperm.filter _).length_eq.symm).symm

/-- The plain scheme is replaced by the secure one, and nothing else is changed. -/
def Secured (url secured : String) : Prop :=
  (∃ rest, url = "http://" ++ rest ∧ secured = "https://" ++ rest) ∨
    (∀ rest, url ≠ "http://" ++ rest) ∧ secured = url

theorem secured_secure (url : String) : Secured url (secure url) := by
  unfold secure
  split
  · rename_i rest hurl
    refine .inl ⟨String.ofList rest, ?_, rfl⟩
    rw [← String.toList_inj, hurl]
    simp
  · rename_i hurl
    refine .inr ⟨fun rest heq => hurl rest.toList ?_, rfl⟩
    rw [heq]
    simp

theorem Secured.ne_plain {url secured : String} (h : Secured url secured) (rest : String) :
    secured ≠ "http://" ++ rest := by
  rcases h with ⟨tail, -, rfl⟩ | ⟨hplain, rfl⟩
  · intro heq
    have hchars := congrArg String.toList heq
    simp at hchars
  · exact hplain rest

theorem forall₂_secure (refs : List CrossReference) :
    List.Forall₂
      (fun r u => ∃ t, u = .string t ∧ Secured r.url t ∧ ∀ rest, t ≠ "http://" ++ rest) refs
      (refs.map fun r => Value.string (secure r.url)) :=
  List.forall₂_map_right_iff.mpr <| List.forall₂_same.mpr fun r _ =>
    ⟨_, rfl, secured_secure r.url, (secured_secure r.url).ne_plain⟩

end Listing

end LicenseDetails

open LicenseDetails

section Records

variable {c : Context} {id body : String} {url : Url} {response : Except String Response}

/-- Where a license is looked up, and what responds there. -/
structure Responds (c : Context) (id : String) (url : Url)
    (response : Except String Response) : Prop where
  address : c.address c.licenseBase [s!"{id}.json"] = .ok url
  response : (c.network.respond url.target).1 = response

def recordOf (id : String) (url : Url) (response : Except String Response) :
    Except Error Value := do
  let body ← Network.bodyOf url.text response
  match (Json.Outline.ofText? body).bind ofPayload? with
  | some details => .ok (details.record id)
  | none => .error (.fetch url.text none "Malformed license record")

theorem exec_fetchLicense (hid : id ≠ "") (h : Responds c id url response) :
    (Run.exec (fetchLicense id) c).1 = recordOf id url response := by
  obtain ⟨haddress, rfl⟩ := h
  have hget : Run.exec (get : Run Context Context) c = (.ok c, c) := rfl
  have hfetch : (Run.exec (Context.fetch url) c).1 =
    Network.bodyOf url.text (c.network.respond url.target).1 := rfl
  rw [fetchLicense, if_neg hid, Run.exec_bind_of_ok hget, haddress,
    Run.exec_bind_of_ok (Run.exec_ofExcept _ c),
    recordOf, ← hfetch]
  rcases hbody : Run.exec (Context.fetch url) c with ⟨e | body, d⟩
  · rw [Run.exec_bind_of_error hbody]
    rfl
  · rw [Run.exec_bind_of_ok hbody, ok_bind]
    cases (Json.Outline.ofText? body).bind ofPayload? <;> rfl

theorem recordOf_of_isFailure (id : String) (url : Url) {r : Response}
    (h : Network.isFailure r.status = true) :
    ∃ e, recordOf id url (.ok r) = .error e ∧ e.kind = .fetch url.text (some r.status) := by
  rw [recordOf, Network.bodyOf, if_pos h]
  exact ⟨_, rfl, rfl⟩

theorem recordOf_of_body {r : Response} (h : Network.isFailure r.status = false) :
    recordOf id url (.ok r) = match (Json.Outline.ofText? r.body).bind ofPayload? with
      | some details => .ok (details.record id)
      | none => .error (.fetch url.text none "Malformed license record") := by
  rw [recordOf, Network.bodyOf, if_neg (by simp [h]), ok_bind]

theorem payload_eq_some_iff {d : LicenseDetails} :
    (Json.Outline.ofText? body).bind ofPayload? = some d ↔
    ∃ j, Json.Outline.IsText j body.toList ∧ DetailsOf j d := by
  simp only [Option.bind_eq_some_iff, Json.Outline.ofText?_eq_some_iff, ofPayload?_eq_some_iff]

theorem recordOf_eq_ok_iff {v : Value} :
    recordOf id url response = .ok v ↔ ∃ r j d, response = .ok r ∧
    Network.isFailure r.status = false ∧ Json.Outline.IsText j r.body.toList ∧ DetailsOf j d ∧
      v = d.record id := by
  constructor
  · intro h
    cases response with
    | error cause => cases h
    | ok r =>
      cases hfailure : Network.isFailure r.status with
      | true =>
        obtain ⟨e, he, -⟩ := recordOf_of_isFailure id url hfailure
        rw [he] at h
        cases h
      | false =>
        rw [recordOf_of_body hfailure] at h
        cases hd : (Json.Outline.ofText? r.body).bind ofPayload? with
        | none => rw [hd] at h; cases h
        | some d =>
          rw [hd] at h
          obtain ⟨j, hj, hdetails⟩ := payload_eq_some_iff.mp hd
          exact ⟨r, j, d, rfl, hfailure, hj, hdetails, (Except.ok.inj h).symm⟩
  · rintro ⟨r, j, d, rfl, hfailure, hj, hdetails, rfl⟩
    rw [recordOf_of_body hfailure, payload_eq_some_iff.mpr ⟨j, hj, hdetails⟩]

theorem kind_of_recordOf {e : Error} (h : recordOf id url response = .error e) :
    ∃ status, e.kind = .fetch url.text status := by
  cases response with
  | error cause =>
    obtain rfl := Except.error.inj h
    exact ⟨none, rfl⟩
  | ok r =>
    cases hfailure : Network.isFailure r.status with
    | true =>
      obtain ⟨e', he, hkind⟩ := recordOf_of_isFailure id url hfailure
      obtain rfl := Except.error.inj (he.symm.trans h)
      exact ⟨_, hkind⟩
    | false =>
      rw [recordOf_of_body hfailure] at h
      split at h
      · cases h
      · obtain rfl := Except.error.inj h
        exact ⟨none, rfl⟩

theorem recordOf_of_body_none {r : Response} (h : Network.isFailure r.status = false)
    (hnone : ∀ j d, Json.Outline.IsText j r.body.toList → ¬DetailsOf j d) :
    ∃ e, recordOf id url (.ok r) = .error e ∧ e.kind = .fetch url.text none := by
  have hpayload : (Json.Outline.ofText? r.body).bind ofPayload? = none := by
    refine Option.eq_none_iff_forall_ne_some.mpr fun d hd => ?_
    obtain ⟨j, hj, hdetails⟩ := payload_eq_some_iff.mp hd
    exact hnone j d hj hdetails
  rw [recordOf_of_body h, hpayload]
  exact ⟨_, rfl, rfl⟩

/-- A call looks the license up, when nothing is remembered for it. What fails is not remembered. -/
theorem exec_call (hnew : Assoc.find? s!"spdx:{id}" c.remembered = none) :
    (Run.exec (Registry.builtin.call "spdx_license" [.string id]) c).1 =
      (Run.exec (fetchLicense id) c).1 ∧
      ∀ e, (Run.exec (fetchLicense id) c).1 = .error e →
        (Run.exec (Registry.builtin.call "spdx_license" [.string id]) c).2.remembered =
          c.remembered := by
  have hremembered : (Run.exec (fetchLicense id) c).2.remembered = c.remembered :=
    (fetches_fetchLicense
      (s := ⟨c.licenseBase, c.packageBase, c.naming, fun _ => .error ""⟩) id).remembered c
  have hcall : Registry.builtin.call "spdx_license" [.string id] =
    Context.lookup s!"spdx:{id}" (fetchLicense id) :=
    Registry.call_of_get? get?_license rfl
  rw [hcall, Context.exec_lookup_new hnew]
  rcases hexec : Run.exec (fetchLicense id) c with ⟨e | v, d⟩
  · rw [hexec] at hremembered
    exact ⟨rfl, fun _ _ => hremembered⟩
  · exact ⟨rfl, nofun⟩

theorem exec_fetchLicense_of_address {e : Error} (hid : id ≠ "")
    (h : c.address c.licenseBase [s!"{id}.json"] = .error e) :
    (Run.exec (fetchLicense id) c).1 = .error e := by
  have hget : Run.exec (get : Run Context Context) c = (.ok c, c) := rfl
  rw [fetchLicense, if_neg hid, Run.exec_bind_of_ok hget, h,
    Run.exec_bind_of_error (Run.exec_ofExcept _ c)]

theorem kind_of_address {e : Error} {base : String} {segments : List String}
    (h : c.address base segments = .error e) : e.kind = .fetch base none := by
  rw [Context.address] at h
  split at h
  · cases h
  · obtain rfl := Except.error.inj h
    rfl

/-- A license that has not been looked up is told in full or not at all. A record holds the texts of
the payload and the addresses of its valid and live references in ascending order, none of them with
the plain scheme. Everything else fails as the upstream's fault, with its status when that tells of
an error, and is not remembered; so do bodies outside the grammar and objects with a defect in any
of their references. -/
theorem license_in_full (hid : id ≠ "") (hnew : Assoc.find? s!"spdx:{id}" c.remembered = none) :
    let outcome := Run.exec (Registry.builtin.call "spdx_license" [.string id]) c
    (∀ v, outcome.1 = .ok v → ∃ url r j d refs urls, Responds c id url (.ok r) ∧
      Network.isFailure r.status = false ∧ Json.Outline.IsText j r.body.toList ∧ DetailsOf j d ∧
      Listing d.references refs ∧
      List.Forall₂
        (fun r u => ∃ t, u = .string t ∧ Secured r.url t ∧ ∀ rest, t ≠ "http://" ++ rest)
        refs urls ∧
      v = .mapping [("id", .string id), ("name", .string d.name),
        ("url", .string ("https://spdx.org/licenses/" ++ id ++ ".html")), ("urls", .sequence urls),
        ("header", .string ("SPDX-License-Identifier: " ++ id)), ("text", .string d.text)]) ∧
    (∀ url r j d, Responds c id url (.ok r) → Network.isFailure r.status = false →
      Json.Outline.IsText j r.body.toList → DetailsOf j d → ∃ v, outcome.1 = .ok v) ∧
    (∀ e, outcome.1 = .error e →
      outcome.2.remembered = c.remembered ∧ ∃ address status, e.kind = .fetch address status) ∧
    (∀ url r, Responds c id url (.ok r) → 400 ≤ r.status ∧ r.status ≤ 599 →
      ∃ e, outcome.1 = .error e ∧ e.kind = .fetch url.text (some r.status)) ∧
    ∀ url r, Responds c id url (.ok r) → Network.isFailure r.status = false →
      (∀ j, ¬Json.Outline.IsText j r.body.toList) ∨
        (∃ j, Json.Outline.IsText j r.body.toList ∧ Defective j) →
      ∃ e, outcome.1 = .error e ∧ e.kind = .fetch url.text none := by
  intro outcome
  obtain ⟨hcall, hforget⟩ := exec_call hnew
  have hrecord : ∀ {url response}, Responds c id url response →
    outcome.1 = recordOf id url response :=
    fun h => hcall.trans (exec_fetchLicense hid h)
  refine ⟨fun v hv => ?_, fun url r j d h hfailure hj hd => ?_,
    fun e he => ⟨hforget e (hcall ▸ he), ?_⟩,
    fun url r h hstatus => ?_, fun url r h hfailure hbody => ?_⟩
  · cases haddress : c.address c.licenseBase [s!"{id}.json"] with
    | error e =>
      cases (hcall.symm.trans hv).symm.trans (exec_fetchLicense_of_address hid haddress)
    | ok url =>
      have hresponds : Responds c id url (c.network.respond url.target).1 := ⟨haddress, rfl⟩
      rw [hrecord hresponds] at hv
      obtain ⟨r, j, d, hr, hfailure, hj, hd, rfl⟩ := recordOf_eq_ok_iff.mp hv
      rw [hr] at hresponds
      exact ⟨url, r, j, d, d.usable, _, hresponds, hfailure, hj, hd, listing_usable d,
        forall₂_secure d.usable, rfl⟩
  · rw [hrecord h]
    exact ⟨_, recordOf_eq_ok_iff.mpr ⟨r, j, d, rfl, hfailure, hj, hd, rfl⟩⟩
  · cases haddress : c.address c.licenseBase [s!"{id}.json"] with
    | error e' =>
      obtain rfl := Except.error.inj
        ((hcall.symm.trans he).symm.trans (exec_fetchLicense_of_address hid haddress))
      exact ⟨_, _, kind_of_address haddress⟩
    | ok url =>
      rw [hrecord ⟨haddress, rfl⟩] at he
      exact ⟨_, kind_of_recordOf he⟩
  · rw [hrecord h]
    exact recordOf_of_isFailure id url (by simp [Network.isFailure, hstatus])
  · rw [hrecord h]
    refine recordOf_of_body_none hfailure fun j d hj hd => ?_
    rcases hbody with hbody | ⟨j', hj', hdefect⟩
    · exact hbody j hj
    · have hsame := (Json.Outline.ofText?_eq_some_iff.mpr hj).symm.trans
        (Json.Outline.ofText?_eq_some_iff.mpr hj')
      obtain rfl := Option.some.inj hsame
      exact hdefect.not_detailsOf hd

/-- Pages about a license. One of them is not live, one is not valid, and two have one order. -/
def pages : List CrossReference :=
  [⟨"http://b", true, true, 2⟩, ⟨"http://x", true, false, 0⟩, ⟨"a", true, true, 1⟩,
    ⟨"y", false, true, 0⟩, ⟨"c", true, true, 2⟩]

def pagesPayload : String :=
  "[\"N\",\"T\",[[\"http://b\",true,true,2],[\"http://x\",true],[\"a\",true,true,1]," ++
    "[\"y\",false,true],\x7b\"isValid\":true,\"order\":2,\"isLive\":true,\"url\":\"c\"\x7d]]"

theorem ofPayload?_pages :
    (Json.Outline.ofText? pagesPayload).bind ofPayload? = some ⟨"N", "T", pages⟩ := by
  decide +kernel

/-- Of the pages the usable ones are listed in ascending order, equal ones as they stand, with the
secure scheme in place of the plain one. An object with a reference that has no address is
refused. -/
theorem license_in_full_payloads :
    let c (body : String) : Context :=
      { environment := Environment.capture default [], licenseBase := "http://mock",
        network := .script [.ok ⟨200, body⟩] }
    let outcome (body : String) :=
      Run.exec (Registry.builtin.call "spdx_license" [.string "M"]) (c body)
    (∃ refs urls, Listing pages refs ∧
      List.Forall₂ (fun r u => ∃ t, u = .string t ∧ Secured r.url t) refs urls ∧
      urls = ["a", "https://b", "c"].map Value.string ∧
      (outcome pagesPayload).1 = .ok (.mapping [("id", .string "M"), ("name", .string "N"),
        ("url", .string "https://spdx.org/licenses/M.html"), ("urls", .sequence urls),
        ("header", .string "SPDX-License-Identifier: M"), ("text", .string "T")])) ∧
    ∃ url e, (outcome "\x7b\"crossRef\":[\x7b\x7d]\x7d").1 = .error e ∧
      e.kind = .fetch url none := by
  intro c outcome
  have hid : "M" ≠ "" := by decide
  have haddress : ∀ body, (c body).address (c body).licenseBase ["M.json"] =
      .ok ⟨"http".toList, some "mock".toList, ["M.json".toList], none, none⟩ := by
    intro body
    cbv
  constructor
  · obtain ⟨j, hj, hd⟩ := payload_eq_some_iff.mp ofPayload?_pages
    have hanswer : (outcome pagesPayload).1 = .ok (LicenseDetails.record ⟨"N", "T", pages⟩ "M") :=
      (exec_call rfl).1.trans <| (exec_fetchLicense hid ⟨haddress _, rfl⟩).trans <|
        recordOf_eq_ok_iff.mpr ⟨_, j, _, rfl, rfl, hj, hd, rfl⟩
    obtain ⟨hlist, -⟩ := license_in_full (c := c pagesPayload) hid rfl
    obtain ⟨url, r, j', d, refs, urls, hresponds, -, hj', hd', hrefs, hurls, hrecord⟩ :=
      hlist _ hanswer
    obtain rfl : ⟨200, pagesPayload⟩ = r := Except.ok.inj hresponds.response
    obtain rfl : d = ⟨"N", "T", pages⟩ :=
      Option.some.inj ((payload_eq_some_iff.mpr ⟨j', hj', hd'⟩).symm.trans ofPayload?_pages)
    have husable :
      (LicenseDetails.usable ⟨"N", "T", pages⟩).map (fun r => Value.string (secure r.url)) =
        ["a", "https://b", "c"].map Value.string := by
      cbv
    have hlisted : urls = ["a", "https://b", "c"].map Value.string := by
      simp only [record, Value.mapping.injEq, List.cons.injEq, Prod.mk.injEq, Value.sequence.injEq,
        true_and] at hrecord
      exact hrecord.2.1.symm.trans husable
    have hsecured : List.Forall₂ (fun r u => ∃ t, u = .string t ∧ Secured r.url t) refs urls :=
      hurls.imp fun _ _ h => h.imp fun _ ht => ⟨ht.1, ht.2.1⟩
    refine ⟨refs, urls, hrefs, hsecured, hlisted, ?_⟩
    rw [hanswer, hrecord]
    rfl
  · obtain ⟨-, -, -, -, hfail⟩ := license_in_full (c := c "\x7b\"crossRef\":[\x7b\x7d]\x7d") hid rfl
    have hnone : DefectiveReference [] := .url fun y s h => by
      obtain ⟨_, hmem, _⟩ := h
      cases hmem
    have hgiven : Given detailFields (.object [("crossRef".toList, .array [.object []])]) "crossRef"
        (.array [.object []]) := ⟨_, List.mem_singleton_self _, rfl⟩
    exact ⟨_, hfail _ _ ⟨haddress _, rfl⟩ rfl (.inr ⟨_, Json.Outline.isText_of_ofText? rfl,
      .reference hgiven (List.mem_singleton_self _) hnone⟩)⟩

end Records

end Manifest.Builtin
