import Manifest.Discovery
import Manifest.Proofs.Project.Cache
import Manifest.Proofs.Resolver.Plain

/-! The project of a directory without a project file. Its document tells the name of the directory,
which is a text as any other there: read as it is written it is the name, but it is resolved before
it is answered. -/
namespace Manifest

namespace Folder

variable {place outer : Place} {path part name : String} {entries : List (String × Entry)}

theorem parts_append_slash (a b : String) : parts (a ++ "/" ++ b) = parts a ++ parts b := by
  have hlist : (a ++ "/" ++ b).toList = a.toList ++ '/' :: b.toList := by simp
  simp only [parts, Path.segmentsBetween, hlist, Path.splitChars_append, List.filter_append,
    List.map_append]

theorem parts_empty : parts "" = [] := by simp [parts, Path.segmentsBetween, Path.splitChars]

/-- Joined paths lead one after the other, whether or not a slash ends the first. -/
theorem parts_join (path part : String) : parts (join path part) = parts path ++ parts part := by
  unfold join
  split
  · rename_i h
    obtain rfl : path = "" := String.toList_eq_nil_iff.mp (List.getLast?_eq_none_iff.mp h)
    rw [parts_empty, List.nil_append]
  · rename_i h
    obtain ⟨front, hfront⟩ := List.getLast?_eq_some_iff.mp h
    obtain rfl : path = String.ofList front ++ "/" ++ "" := by
      rw [String.append_empty, ← String.toList_inj]
      simp [hfront]
    rw [String.append_empty, parts_append_slash,
      ← String.append_empty (s := String.ofList front ++ "/"),
      parts_append_slash, parts_empty, List.append_nil]
  · exact parts_append_slash path part

theorem isFile_join_eq_false (hplace : locate place path = .ok ((name, .folder entries) :: outer))
    (hpart : parts part = [part]) (hdots : part ≠ "..")
    (hnone : ∀ octets, Assoc.find? part entries ≠ some (.file octets)) :
    isFile place (join path part) = false := by
  have hlocate : locate place (join path part) = step ((name, .folder entries) :: outer) part := by
    rw [locate] at hplace
    rw [locate, parts_join, List.foldlM_append, hplace, hpart]
    exact bind_pure (step ((name, .folder entries) :: outer) part)
  rw [isFile, hlocate, step, if_neg hdots]
  cases hfind : Assoc.find? part entries with
  | none => rfl
  | some e =>
    cases e with
    | file octets => exact absurd hfind (hnone octets)
    | folder inner => rfl

end Folder

namespace Project

variable {σ : Type}

section Constant

variable {p : Project σ} {path : String} {result : Except Error Value}

/-- A path that always resolves to the same, with no effect, is always answered so, whatever has
been read before. -/
theorem exec_get_after
    (h : ∀ world, Run.exec (p.resolver.resolveOnce (p.expand path)) world = (result, world))
    (world : σ) (steps : List Step) :
    let s := p.after steps { world }
    (Run.exec (p.get path) s).1 = result ∧ (Run.exec (p.get path) s).2.world = s.world := by
  have hget : ∀ s : Session σ,
    (∀ v, Assoc.find? (p.expand path) s.cache = some v → result = .ok v) →
      ∀ path', p.expand path' = p.expand path →
        (Run.exec (p.get path') s).1 = result ∧ (Run.exec (p.get path') s).2.world = s.world := by
    intro s hs path' hpath
    cases hfind : Assoc.find? (p.expand path') s.cache with
    | some v =>
      rw [exec_get_cached hfind, hs v (hpath ▸ hfind)]
      exact ⟨rfl, rfl⟩
    | none =>
      have hnew := exec_get_new_eq hfind
      rw [hpath, h s.world] at hnew
      exact hnew
  have hkept : ∀ v, Assoc.find? (p.expand path) (p.after steps { world }).cache = some v →
    result = .ok v := by
    induction steps using List.reverseRecOn with
    | nil => exact fun v hv => by cases hv
    | append_singleton steps step ih =>
      intro v hv
      rw [after_concat, find?_exec_run] at hv
      rcases hv.2 with hv | ⟨path', -, hpath, hv⟩
      · exact ih v hv
      · rw [← (hget _ ih path' hpath).1, hv]
  exact hget _ hkept path rfl

theorem exec_getString_fst (p : Project σ) (path : String) (s : Session σ) :
    (Run.exec (p.getString path) s).1 = (Run.exec (p.get path) s).1.map Value.render := by
  rw [getString, Run.exec_bind_pure]

end Constant

def nameKeys : Keys := ["project", "name"]

theorem root_nameDocument (name : String) :
    (nameDocument name).root = .mapping [("project", .mapping [("name", .string name)])] := rfl

variable {name : String} {s : Scope} {settle : Settling σ} {keys : Keys} {v : Value}

theorem walk_singleton {k key : String} {w : Value}
    (h : (Value.mapping [(k, w)]).walk (key :: keys) = .ok v) :
    k = key ∧ w.walk keys = .ok v := by
  by_cases hk : k = key
  · exact ⟨hk, by simpa [Value.walk, Value.child, Assoc.find?, hk] using h⟩
  · simp [Value.walk, Value.child, Assoc.find?, hk] at h

theorem eq_of_getIn_nameDocument (h : (nameDocument name).root.getIn keys = .ok v) :
    keys = [] ∨ keys = ["project"] ∨ keys = nameKeys := by
  rw [root_nameDocument, Value.getIn_eq_ok] at h
  rcases keys with _ | ⟨_, keys⟩
  · exact .inl rfl
  obtain ⟨rfl, hproject⟩ := walk_singleton h
  rcases keys with _ | ⟨_, keys⟩
  · exact .inr (.inl rfl)
  obtain ⟨rfl, hname⟩ := walk_singleton hproject
  rcases keys with _ | ⟨_, keys⟩
  · exact .inr (.inr rfl)
  · simp [Value.walk, Value.child] at hname

theorem visits_error_of_first {n : Need} {needs : List Need} {p : Progress σ} {e : Error}
    (hnew : keys ∉ p.stack)
    (hm : p.memo = []) (hv : s.document.root.getIn keys = .ok v)
    (hneeds : s.needs keys v = n :: needs)
    (hn : s.Visits settle n.keys (p.push keys) (.error e) (p.push keys)) :
    s.Visits settle keys p (.error e) p := by
  have hfind : Assoc.find? keys p.memo = none := by rw [hm, Assoc.find?_nil]
  have hgathers :
    s.Gathers settle keys (s.needs keys v) (p.push keys) (.error e) (p.push keys) := by
    rw [hneeds]
    exact .unresolved hn
  have hvisits := Scope.Visits.failed hnew hfind hv hgathers
  rwa [Progress.pop_push] at hvisits

/-- While the name is in progress, each node that there is leads back to it. -/
theorem exists_visits_circle (settle : Settling σ) (hs : s.document = nameDocument name)
    (hv : s.document.root.getIn keys = .ok v) :
    ∃ chain, ∀ world, s.Visits settle keys { stack := [nameKeys], world }
      (.error (.circularReference "project.name" chain)) { stack := [nameKeys], world } := by
  have hroot : s.document.root = .mapping [("project", .mapping [("name", .string name)])] := by
    rw [hs, root_nameDocument]
  have hproject : ∀ p : Progress σ, nameKeys ∈ p.stack → ["project"] ∉ p.stack → p.memo = [] →
      s.Visits settle ["project"] p (.error (Scope.circle (p.stack ++ [["project"]]) nameKeys)) p :=
    fun p hp hnew hm =>
      visits_error_of_first hnew hm (by rw [hroot]; rfl) rfl (.circle (List.mem_append_left _ hp))
  rw [hs] at hv
  rcases eq_of_getIn_nameDocument hv with rfl | rfl | rfl
  · refine ⟨[nameKeys, [], ["project"], nameKeys].map Path.dotted, fun world => ?_⟩
    have hbelow :=
      hproject (Progress.push { stack := [nameKeys], world } []) (by simp) (by simp [nameKeys]) rfl
    exact visits_error_of_first (by simp [nameKeys]) rfl (by rw [hroot]; rfl) rfl hbelow
  · refine ⟨[nameKeys, ["project"], nameKeys].map Path.dotted, fun world => ?_⟩
    exact hproject _ (by simp) (by simp [nameKeys]) rfl
  · exact ⟨[nameKeys, nameKeys].map Path.dotted, fun world => .circle (by simp)⟩

variable {p : Project σ}

theorem expand_name (p : Project σ) : p.expand "project.name" = "project.name" :=
  Path.expand_of_absolute (by decide)

theorem keys_name (p : Project σ) : p.resolver.keys "project.name" = nameKeys := by
  rw [keys_resolver, expand_name]
  decide

theorem getIn_name (hp : p.document = nameDocument name) :
    p.document.root.getIn nameKeys = .ok (.string name) := by
  rw [hp]
  rfl

theorem getRaw_name (hp : p.document = nameDocument name) :
    p.getRaw "project.name" = .ok (.string name) := by
  rw [getRaw_eq, keys_name, getIn_name hp]

/-- What comes of the name for a resolver that has done nothing is what it answers at its path. -/
theorem exec_resolveOnce_name {r : Except Error Value} {q : Progress σ} {world : σ}
    (h : p.resolver.Visits p.resolver.settle nameKeys { world } r q) :
    Run.exec (p.resolver.resolveOnce "project.name") world = (r, q.world) := by
  rw [← keys_name p] at h
  rw [Resolver.resolveOnce, Run.exec_onPart, Resolver.exec_resolve_eq_iff.mpr h]

theorem exec_resolveOnce_of_plain (hp : p.document = nameDocument name)
    (h : Template.hasPlaceholder name = false)
    (world : σ) :
    Run.exec (p.resolver.resolveOnce "project.name") world = (.ok (.string name), world) := by
  have hv : p.resolver.document.root.getIn nameKeys = .ok (.string name) := getIn_name hp
  have hplain : (Value.string name).Plain := by
    intro text htext
    obtain rfl : text = name := by simpa [Value.texts] using htext
    exact h
  obtain ⟨q, hvisits, -, hworld⟩ := Scope.exists_visits_of_plain (p := { world })
    p.resolver.settle_of_query_eq_none (by simp [Scope.Verbatim]) hv hplain (by simp)
  rw [exec_resolveOnce_name hvisits, hworld]

/-- A name with a placeholder does not resolve: the first one asks for a node that is not there, or
for one that leads back to the name. -/
theorem exists_error_of_hasPlaceholder (hp : p.document = nameDocument name)
    (h : Template.hasPlaceholder name = true) :
    ∃ first e, (Template.placeholders (Template.pieces name.toList)).head? = some first ∧
      (p.getRaw first.path = .error e ∨
        (∃ v, p.getRaw first.path = .ok v) ∧ ∃ chain, e = .circularReference "project.name" chain) ∧
      ∀ world, Run.exec (p.resolver.resolveOnce "project.name") world = (.error e, world) := by
  have hne : Template.placeholders (Template.pieces name.toList) ≠ [] := by
    rw [← Template.spansFrom_placeholder 0]
    simpa [Template.hasPlaceholder, Template.scan] using h
  obtain ⟨first, rest, hfirst⟩ := List.exists_cons_of_ne_nil hne
  let target := p.resolver.keys first.path
  obtain ⟨needs, hneeds⟩ :
      ∃ needs, p.resolver.needs nameKeys (.string name) = ⟨0, target, first.query⟩ :: needs := by
    rw [Scope.needs, hfirst, List.mapIdx_cons]
    exact ⟨_, rfl⟩
  have hv : p.resolver.document.root.getIn nameKeys = .ok (.string name) := getIn_name hp
  have hexec : ∀ {e},
    (∀ world, p.resolver.Visits p.resolver.settle target { stack := [nameKeys], world } (.error e)
      { stack := [nameKeys], world }) →
      ∀ world, Run.exec (p.resolver.resolveOnce "project.name") world = (.error e, world) :=
        fun htarget world =>
    exec_resolveOnce_name (visits_error_of_first (by simp) rfl hv hneeds (htarget world))
  have hraw : p.getRaw first.path = p.resolver.document.root.getIn target := getRaw_eq p first.path
  refine ⟨first, ?_⟩
  rw [hfirst, List.head?_cons, hraw]
  cases hget : p.resolver.document.root.getIn target with
  | error e =>
    have hnew : target ∉ [nameKeys] := by
      intro hmem
      rw [List.mem_singleton.mp hmem, hv] at hget
      cases hget
    exact ⟨e, rfl, .inl rfl, hexec fun world => .missing hnew rfl hget⟩
  | ok w =>
    obtain ⟨chain, hchain⟩ := exists_visits_circle p.resolver.settle hp hget
    exact ⟨_, rfl, .inr ⟨⟨w, rfl⟩, chain, rfl⟩, hexec hchain⟩

/-- The directory at a path has no project file if it holds none under the names of such files;
there may be folders of these names. -/
theorem discover_eq (registry : Registry σ) {place outer : Place} {path : String}
    {entries : List (String × Entry)}
    (home : Option String)
    (hplace : Folder.locate place path = .ok ((name, .folder entries) :: outer))
    (hfiles : ∀ file ∈ fileNames, ∀ octets, Assoc.find? file entries ≠ some (.file octets)) :
    discover registry place path home =
      .ok { document := nameDocument name, registry, home := some (home.getD defaultHome) } := by
  have hnone : (fileNames.map (Folder.join path)).find? (Folder.isFile place) = none := by
    rw [List.find?_eq_none]
    intro candidate hcandidate
    obtain ⟨file, hfile, rfl⟩ := List.mem_map.mp hcandidate
    have hparts : ∀ file ∈ fileNames, Folder.parts file = [file] ∧ file ≠ ".." := by decide
    rw [Folder.isFile_join_eq_false hplace (hparts file hfile).1 (hparts file hfile).2
      (hfiles file hfile)]
    exact Bool.false_ne_true
  have hname : Folder.nameAt place path = name := by rw [Folder.nameAt, hplace]
  rw [discover, hnone, hname]

end Project
end Manifest
