import Manifest.Function.Context

/-! Computations that fetch from an upstream whose response depends on nothing but the target. They
give the same in all contexts that send requests to the same places, and leave alone what is
remembered. -/
namespace Manifest

namespace Network

variable {n : Network} {upstream : String → Except String Response}

def after (n : Network) : List String → Network
  | [] => n
  | target :: targets => (n.respond target).2.after targets

/-- The response to a request depends on its target alone, whatever was asked for before. -/
def Serves (n : Network) (upstream : String → Except String Response) : Prop :=
  ∀ before target, ((n.after before).respond target).1 = upstream target

theorem Serves.respond (h : n.Serves upstream) (target : String) :
    (n.respond target).1 = upstream target := h [] target

theorem Serves.next (h : n.Serves upstream) (target : String) :
    (n.respond target).2.Serves upstream := fun before => h (target :: before)

theorem serves_of_respond (h : ∀ target, (n.respond target).2 = n) :
    n.Serves fun target => (n.respond target).1 := by
  have hafter : ∀ before, n.after before = n := by
    intro before
    induction before with
    | nil => rfl
    | cons target before ih => rw [after, h, ih]
  intro before target
  rw [hafter]

theorem serves_table {routes : List (String × List Response)}
    (h : ∀ e ∈ routes, e.2.length ≤ 1) :
    (table routes).Serves fun target => ((table routes).respond target).1 := by
  refine serves_of_respond fun target => ?_
  simp only [respond]
  split
  · rfl
  · rfl
  · rfl
  · rename_i r rs hmany hfind
    have hlen : (r :: rs).length ≤ 1 := h _ (Assoc.mem_of_find? hfind)
    obtain rfl : rs = [] := by simpa using hlen
    exact absurd rfl hmany

end Network

/-- Where requests go: the two base addresses, how their hosts are named, and what responds. -/
structure Source where
  licenseBase : String
  packageBase : String
  naming : Url.Host.Naming
  upstream : String → Except String Response

namespace Context

variable {α β : Type} {s : Source} {c d : Context}

/-- A context sends its requests to a source. -/
structure From (c : Context) (s : Source) : Prop where
  licenseBase : c.licenseBase = s.licenseBase
  packageBase : c.packageBase = s.packageBase
  naming : c.naming = s.naming
  network : c.network.Serves s.upstream

theorem From.address (hc : c.From s) (hd : d.From s) (base : String) (segments : List String) :
    c.address base segments = d.address base segments := by
  rw [Context.address, Context.address, hc.naming, hd.naming]

/-- A computation gives the same in all contexts of a source. It leaves them contexts of this
source, and what they remember as it is. -/
structure Fetches (s : Source) (x : Run Context α) : Prop where
  answer : ∀ c d : Context, c.From s → d.From s → (Run.exec x c).1 = (Run.exec x d).1
  source : ∀ c : Context, c.From s → (Run.exec x c).2.From s
  remembered : ∀ c : Context, (Run.exec x c).2.remembered = c.remembered

theorem fetches_ofExcept (r : Except Error α) : Fetches s (Run.ofExcept r) :=
  ⟨fun _ _ _ _ => rfl, fun _ h => h, fun _ => rfl⟩

theorem fetches_pure (a : α) : Fetches s (pure a : Run Context α) :=
  ⟨fun _ _ _ _ => rfl, fun _ h => h, fun _ => rfl⟩

theorem fetches_throw (e : Error) : Fetches s (throw e : Run Context α) :=
  ⟨fun _ _ _ _ => rfl, fun _ h => h, fun _ => rfl⟩

theorem Fetches.bind {x : Run Context α} {f : α → Run Context β} (hx : Fetches s x)
    (hf : ∀ a, Fetches s (f a)) : Fetches s (x >>= f) := by
  refine ⟨fun c d hc hd => ?_, fun c hc => ?_, fun c => ?_⟩
  · rcases hxc : Run.exec x c with ⟨r, c'⟩
    rcases hxd : Run.exec x d with ⟨r', d'⟩
    have hc' : c'.From s := by simpa only [hxc] using hx.source c hc
    have hd' : d'.From s := by simpa only [hxd] using hx.source d hd
    obtain rfl : r = r' := by simpa only [hxc, hxd] using hx.answer c d hc hd
    cases r with
    | ok a =>
      rw [Run.exec_bind_of_ok hxc, Run.exec_bind_of_ok hxd]
      exact (hf a).answer c' d' hc' hd'
    | error e => rw [Run.exec_bind_of_error hxc, Run.exec_bind_of_error hxd]
  · rcases hxc : Run.exec x c with ⟨r, c'⟩
    have hc' : c'.From s := by simpa only [hxc] using hx.source c hc
    cases r with
    | ok a =>
      rw [Run.exec_bind_of_ok hxc]
      exact (hf a).source c' hc'
    | error e =>
      rw [Run.exec_bind_of_error hxc]
      exact hc'
  · rcases hxc : Run.exec x c with ⟨r, c'⟩
    have hkept : c'.remembered = c.remembered := by simpa only [hxc] using hx.remembered c
    cases r with
    | ok a =>
      rw [Run.exec_bind_of_ok hxc]
      exact ((hf a).remembered c').trans hkept
    | error e =>
      rw [Run.exec_bind_of_error hxc]
      exact hkept

theorem fetches_get_bind {f : Context → Run Context α}
    (hsame : ∀ c d : Context, c.From s → d.From s → f c = f d) (hf : ∀ c, Fetches s (f c)) :
    Fetches s (do let c ← get; f c) := by
  have hexec : ∀ c, Run.exec (do let c ← get; f c : Run Context α) c = Run.exec (f c) c :=
    fun _ => rfl
  refine ⟨fun c d hc hd => ?_, fun c hc => ?_, fun c => ?_⟩
  · rw [hexec, hexec, hsame c d hc hd]
    exact (hf d).answer c d hc hd
  · rw [hexec]
    exact (hf c).source c hc
  · rw [hexec]
    exact (hf c).remembered c

theorem fetches_fetch (url : Url) : Fetches s (fetch url) where
  answer c d hc hd := by
    change Network.bodyOf url.text (c.network.respond url.target).1 =
      Network.bodyOf url.text (d.network.respond url.target).1
    rw [hc.network.respond, hd.network.respond]
  source c hc := { hc with network := hc.network.next url.target }
  remembered _ := rfl

end Context
end Manifest
