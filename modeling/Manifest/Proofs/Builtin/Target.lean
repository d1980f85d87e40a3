import Manifest.Builtin.License
import Manifest.Builtin.Package
import Manifest.Proofs.Url.Join
import Mathlib

/-! Which targets lookups ask for: the path of the base address, and behind it the segments of the
lookup. -/
namespace Manifest

open Builtin (packageSegments fetchPackage fetchLicense)
open Url (Barred Holds Kept decode rooted)

/-- Requests get to what responds. -/
def Network.Reachable (n : Network) : Prop := ∀ cause, n ≠ .unreachable cause

def Builtin.licenseSegment (id : String) : String := s!"{id}.json"

open Builtin (licenseSegment)

namespace Context

variable {c : Context} {url u : Url} {base : String}

theorem requests_fetch (h : c.network.Reachable) (url : Url) :
    (Run.exec (fetch url) c).2.requests = url.target :: c.requests := by
  unfold fetch
  rw [Run.exec_ofStep]
  cases hn : c.network with
  | table routes => rfl
  | script outcomes => rfl
  | unreachable cause => exact absurd hn (h cause)

/-- What follows a request makes no other, if it is but a result that depends on the body. -/
theorem requests_fetch_bind {α : Type} {f : String → Run Context α}
    (hf : ∀ body d, (Run.exec (f body) d).2 = d) (h : c.network.Reachable) (url : Url) :
    (Run.exec (fetch url >>= f) c).2.requests = url.target :: c.requests := by
  rw [← requests_fetch h url]
  rcases hbody : Run.exec (fetch url) c with ⟨e | body, d⟩
  · rw [Run.exec_bind_of_error hbody]
  · rw [Run.exec_bind_of_ok hbody, hf]

theorem address_of_read (hbase : Url.read c.naming base = .ok u) (segments : List String) :
    c.address base segments = .ok (u.join segments) := by
  rw [address, hbase]

/-- A lookup asks for one target, behind the base address that the context has for it. -/
theorem requests_lookup {α : Type} {base : Context → String} {segments : List String}
    {f : Url → String → Run Context α} (hbase : Url.read c.naming (base c) = .ok u)
    (hf : ∀ url body d, (Run.exec (f url body) d).2 = d) (h : c.network.Reachable) :
    (Run.exec (do
      let context ← get
      let url ← Run.ofExcept (context.address (base context) segments)
      let body ← fetch url
      f url body) c).2.requests = (u.join segments).target :: c.requests := by
  have hget : Run.exec (get : Run Context Context) c = (.ok c, c) := rfl
  rw [Run.exec_bind_of_ok hget, address_of_read hbase, Run.exec_bind_of_ok (Run.exec_ofExcept _ c)]
  exact requests_fetch_bind (hf _) h _

theorem requests_fetchPackage (hbase : Url.read c.naming c.packageBase = .ok u)
    (h : c.network.Reachable)
    (name : String) (version : Option String) :
    (Run.exec (fetchPackage name version) c).2.requests =
      (u.join (packageSegments name version)).target :: c.requests := by
  refine requests_lookup hbase (fun url body d => ?_) h
  split
  · rfl
  · rfl

theorem requests_fetchLicense (hbase : Url.read c.naming c.licenseBase = .ok u)
    (h : c.network.Reachable)
    {id : String} (hid : id ≠ "") :
    (Run.exec (fetchLicense id) c).2.requests =
      (u.join [licenseSegment id]).target :: c.requests := by
  rw [fetchLicense, if_neg hid]
  refine requests_lookup hbase (fun url body d => ?_) h
  split
  · rfl
  · rfl

end Context

namespace Builtin

variable {name id : String} {version : Option String}

theorem toList_licenseSegment (id : String) :
    (licenseSegment id).toList = id.toList ++ ".json".toList := by
  simp [licenseSegment, toString]

theorem kept_licenseSegment (h : ∀ c ∈ id.toList, Url.isLineBreakOrTab c = false) :
    Kept (licenseSegment id) := by
  have hends : ∀ t : String, t.toList.length < 5 → licenseSegment id ≠ t := by
    rintro t ht rfl
    rw [toList_licenseSegment, List.length_append] at ht
    have hfive : (".json".toList).length = 5 := by decide
    omega
  refine ⟨hends _ (by decide), hends _ (by decide), fun c hc => ?_⟩
  rw [toList_licenseSegment, List.mem_append] at hc
  rcases hc with hc | hc
  · exact h c hc
  · have hplain : Kept ".json" := by decide
    exact hplain.2.2 c hc

theorem licenseSegment_ne_empty (id : String) : licenseSegment id ≠ "" := by
  intro h
  have hchars := congrArg String.toList h
  rw [toList_licenseSegment] at hchars
  simp at hchars

theorem not_barred_licenseSegment (id : String) : ¬Barred (licenseSegment id) := by
  rintro ⟨c, -, hc⟩
  have hlength := congrArg List.length hc
  rw [toList_licenseSegment, List.length_append] at hlength
  simp at hlength

theorem licenseSegment_injective {id id' : String} (h : licenseSegment id = licenseSegment id') :
    id = id' := by
  have hchars := congrArg String.toList h
  rw [toList_licenseSegment, toList_licenseSegment, List.append_cancel_right_eq] at hchars
  exact String.toList_inj.mp hchars

theorem forall_mem_packageSegments {p : String → Prop} (hpypi : p "pypi") (hjson : p "json") :
    (∀ s ∈ packageSegments name version, p s) ↔ ∀ s ∈ name :: version.toList, p s := by
  simp only [packageSegments, List.mem_append, List.mem_cons, List.not_mem_nil, or_false]
  constructor
  · intro h s hs
    rcases hs with rfl | hs
    · exact h s (by simp)
    · exact h s (by simp [hs])
  · rintro h s (((rfl | rfl) | hs) | rfl)
    · exact hpypi
    · exact h s (by simp)
    · exact h s (by simp [hs])
    · exact hjson

theorem not_barred_packageSegments (name : String) (version : Option String) :
    ∀ s ∈ (packageSegments name version).head?, ¬Barred s := by
  rintro s hs ⟨c, -, hc⟩
  obtain rfl : "pypi" = s := Option.some.inj hs
  have hlength := congrArg List.length hc
  simp at hlength

theorem packageSegments_injective {name' : String} {version' : Option String}
    (h : packageSegments name version = packageSegments name' version') :
    name = name' ∧ version = version' := by
  cases version <;> cases version' <;> simp_all [packageSegments]

end Builtin

namespace Context

variable {c : Context} {u : Url} {base : String}

/-- Segments that are added to a base address keep to themselves just if the address takes them as
they are: none of them is one dot or two or holds tabs or line breaks, the path of the base is not
two slashes, and the first of them is no drive in the bare path of a file. Then the path is that of
the base, without an empty segment at its end, followed by a segment for each of them, which decodes
to it; scheme, authority, query and fragment are those of the base anyway. Packages with names and
versions that stay what they are are asked for at different targets, and so are licenses with such
identifiers. Whatever the names, versions and identifiers, the path goes on behind that of the
base. -/
theorem address_intact (hbase : Url.read c.naming base = .ok u) :
    (∀ segments : List String, (∀ s ∈ segments, s ≠ "") →
      ∃ url, c.address base segments = .ok url ∧ url.scheme = u.scheme ∧
        url.authority = u.authority ∧ url.query = u.query ∧ url.fragment = u.fragment ∧
        (u.Fits segments ↔
          ∃ ps, rooted url.path = rooted (u.front ++ ps) ∧ List.Forall₂ Holds ps segments)) ∧
    (c.packageBase = base → c.network.Reachable → ∀ name version name' version',
      (∀ s ∈ name :: version.toList ++ name' :: version'.toList, s ≠ "" ∧ Kept s) →
      (Run.exec (fetchPackage name version) c).2.requests =
        (Run.exec (fetchPackage name' version') c).2.requests → name = name' ∧ version = version') ∧
    (c.licenseBase = base → c.network.Reachable → ∀ id id' : String, id ≠ "" → id' ≠ "" →
      (∀ x ∈ id.toList ++ id'.toList, Url.isLineBreakOrTab x = false) →
      (Run.exec (fetchLicense id) c).2.requests = (Run.exec (fetchLicense id') c).2.requests →
      id = id') ∧
    (u.front ≠ [[]] → ∀ (name : String) (version : Option String) (id : String),
      u.front <+: (u.join (packageSegments name version)).path ∧
        u.front <+: (u.join [licenseSegment id]).path) := by
  refine ⟨fun segments hne => ?_, ?_, ?_, fun hslash name version id => ⟨?_, ?_⟩⟩
  · exact ⟨u.join segments, address_of_read hbase segments, rfl, rfl, rfl, rfl,
      (Url.exists_rooted_join_iff hne u).symm⟩
  · rintro rfl hreach name version name' version' h heq
    have hall : ∀ s ∈ packageSegments name version ++ packageSegments name' version',
        s ≠ "" ∧ Kept s := by
      rw [List.forall_mem_append] at h ⊢
      have hwords : ("pypi" ≠ "" ∧ Kept "pypi") ∧ "json" ≠ "" ∧ Kept "json" := by decide
      exact ⟨(Builtin.forall_mem_packageSegments hwords.1 hwords.2).mpr h.1,
        (Builtin.forall_mem_packageSegments hwords.1 hwords.2).mpr h.2⟩
    rw [requests_fetchPackage hbase hreach, requests_fetchPackage hbase hreach] at heq
    exact Builtin.packageSegments_injective (Url.segments_eq_of_target (by simp [packageSegments])
      (by simp [packageSegments]) (fun s hs => (hall s hs).1) (fun s hs => (hall s hs).2)
      ⟨Builtin.not_barred_packageSegments _ _, Builtin.not_barred_packageSegments _ _⟩
      (List.cons.inj heq).1)
  · rintro rfl hreach id id' hid hid' h heq
    rw [List.forall_mem_append] at h
    rw [requests_fetchLicense hbase hreach hid, requests_fetchLicense hbase hreach hid'] at heq
    have hsegments := Url.segments_eq_of_target (List.cons_ne_nil _ _) (List.cons_ne_nil _ _)
      (by simp [Builtin.licenseSegment_ne_empty])
      (by simp [Builtin.kept_licenseSegment h.1, Builtin.kept_licenseSegment h.2])
      (by simp [Builtin.not_barred_licenseSegment]) (List.cons.inj heq).1
    exact Builtin.licenseSegment_injective (List.cons.inj hsegments).1
  · exact Url.front_prefix_join hslash (by decide) _
  · refine Url.front_prefix_join_singleton hslash ?_
    have hjson : (".json".toList.filter fun c => !Url.isLineBreakOrTab c).length = 5 := by decide
    rw [Builtin.toList_licenseSegment, List.filter_append, List.length_append]
    omega

def shelf : Context where
  environment := { now := default, cacheDir := "", configDir := "" }
  packageBase := "http://mock/a/?q#f"
  network := .table []

theorem read_shelf : Url.read shelf.naming shelf.packageBase =
    .ok ⟨"http".toList, some "mock".toList, [['a'], []], some ['q'], some ['f']⟩ := by
  cbv

/-- Slashes, percent signs and dots that are not alone stay inside their segments. -/
theorem address_intact_shelf :
    Url.read shelf.naming shelf.packageBase =
      .ok ⟨"http".toList, some "mock".toList, [['a'], []], some ['q'], some ['f']⟩ ∧
    (∀ s ∈ ["../x", "50%2f é", "...", "?#"], s ≠ "" ∧ Kept s) ∧
    (∃ url ps, shelf.address shelf.packageBase ["../x", "50%2f é", "...", "?#"] = .ok url ∧
      rooted url.path = ['a'] :: ps ∧ List.Forall₂ Holds ps ["../x", "50%2f é", "...", "?#"]) ∧
    (Run.exec (fetchPackage "a/1" none) shelf).2.requests ≠
      (Run.exec (fetchPackage "a" (some "1")) shelf).2.requests := by
  have hkept : ∀ s ∈ ["../x", "50%2f é", "...", "?#"], s ≠ "" ∧ Kept s := by decide
  have hreach : shelf.network.Reachable := nofun
  obtain ⟨hsegments, hpackages, -⟩ := address_intact read_shelf
  obtain ⟨url, hurl, -, -, -, -, hparts⟩ := hsegments _ fun s hs => (hkept s hs).1
  obtain ⟨ps, hps, hholds⟩ := hparts.mp
    ⟨fun s hs => (hkept s hs).2, fun _ => by decide, fun _ hfront => absurd hfront (by decide)⟩
  refine ⟨read_shelf, hkept, ⟨url, ps, hurl, hps, hholds⟩, fun heq => ?_⟩
  have hnames := hpackages rfl hreach "a/1" none "a" (some "1") (by decide) heq
  exact absurd hnames.1 (by decide)

/-- A tab in a name is lost, so that two packages are asked for at one target; a name of one dot or
two is left out; and two dots with a tab between them lead out of where packages are. A path of two
slashes loses the empty segment between them, and in the bare path of a file a letter with a bar is
written with a colon. -/
theorem address_not_intact :
    shelf.address shelf.packageBase ["x\ty"] =
      .ok ⟨"http".toList, some "mock".toList, [['a'], ['x', 'y']], some ['q'], some ['f']⟩ ∧
    ¬Holds ['x', 'y'] "x\ty" ∧
    (Run.exec (fetchPackage "x\ty" none) shelf).2.requests = ["/a/pypi/xy/json?q"] ∧
    (Run.exec (fetchPackage "xy" none) shelf).2.requests = ["/a/pypi/xy/json?q"] ∧
    (Run.exec (fetchPackage "." none) shelf).2.requests = ["/a/pypi/json?q"] ∧
    (Run.exec (fetchPackage ".." none) shelf).2.requests = ["/a/pypi/json?q"] ∧
    (Run.exec (fetchPackage ".\t." none) shelf).2.requests = ["/a//json?q"] ∧
    (shelf.address "http://mock//" []).map Url.path = .ok [[]] ∧
    (shelf.address "http://mock//" ["x"]).map Url.path = .ok [['x']] ∧
    (shelf.address "file:///" ["C|", "x"]).map Url.path = .ok [['C', ':'], ['x']] := by
  have hreach : shelf.network.Reachable := nofun
  have hoctets : decode ['x', 'y'] ≠ Text.Utf8.encode "x\ty" := by decide
  have hrequests := fun name => requests_fetchPackage read_shelf hreach name none
  exact ⟨(address_of_read read_shelf _).trans (by cbv), fun h => hoctets h.1,
    (hrequests _).trans (by cbv), (hrequests _).trans (by cbv), (hrequests _).trans (by cbv),
    (hrequests _).trans (by cbv), (hrequests _).trans (by cbv), by cbv, by cbv, by cbv⟩

end Context
end Manifest
