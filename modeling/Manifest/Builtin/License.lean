import Manifest.Function.Context
import Manifest.Function.Registry
import Manifest.Json.Outline

/-! Looking up licenses by identifier. -/
namespace Manifest.Builtin

structure CrossReference where
  url : String
  isValid : Bool
  isLive : Bool
  order : Int
  deriving DecidableEq, Repr

structure LicenseDetails where
  name : String
  text : String
  references : List CrossReference
  deriving DecidableEq, Repr

namespace LicenseDetails

abbrev Payload := Json.Outline

open Json.Outline (string? bool? denoted?)

def order? (j : Payload) : Option Int :=
  j.int?.filter fun n => -0x8000000000000000 ≤ n ∧ n < 0x8000000000000000

/-- The values of an object or an array under field names, in their order. In an object a field that
is known may stand once, others do not matter but for their names; in an array the fields stand in
order, and the last ones may be missing. -/
def fields? (names : List String) : Payload → Option (List (Option Payload))
  | .object members => do
    let members ← members.mapM fun (key, j) => (denoted? key).map fun k => (k, j)
    if names.any fun n => 1 < (members.filter fun m => m.1 = n).length then none
    else some (names.map fun n => Assoc.find? n members)
  | .array items =>
    if names.length < items.length then none
    else some (items.map some ++ List.replicate (names.length - items.length) none)
  | _ => none

def optional {α : Type} (read : Payload → Option α) (default : α) : Option Payload → Option α
  | none => some default
  | some j => read j

def reference? (j : Payload) : Option CrossReference :=
  match fields? ["url", "isValid", "isLive", "order"] j with
  | some [some url, isValid, isLive, order] => do
    return {
      url := ← string? url
      isValid := ← optional bool? false isValid
      isLive := ← optional bool? false isLive
      order := ← optional order? 0 order }
  | _ => none

def references? : Payload → Option (List CrossReference)
  | .array items => items.mapM reference?
  | _ => none

def ofPayload? (j : Payload) : Option LicenseDetails :=
  match fields? ["name", "licenseText", "crossRef"] j with
  | some [some name, some text, references] => do
    return {
      name := ← string? name
      text := ← string? text
      references := ← optional references? [] references }
  | _ => none

/-- An address with the secure scheme in place of the plain one. -/
def secure (url : String) : String :=
  match url.toList with
  | 'h' :: 't' :: 't' :: 'p' :: ':' :: '/' :: '/' :: rest =>
    "https://" ++ String.ofList rest
  | _ => url

/-- The references that are valid and live, in ascending order; equal ones as they stand. -/
def usable (d : LicenseDetails) : List CrossReference :=
  (d.references.filter fun r => r.isValid && r.isLive).mergeSort fun a b => a.order ≤ b.order

def record (d : LicenseDetails) (id : String) : Value :=
  .mapping [
    ("id", .string id),
    ("name", .string d.name),
    ("url", .string s!"https://spdx.org/licenses/{id}.html"),
    ("urls", .sequence (d.usable.map fun r => .string (secure r.url))),
    ("header", .string s!"SPDX-License-Identifier: {id}"),
    ("text", .string d.text)]

end LicenseDetails

def fetchLicense (id : String) : Run Context Value :=
  if id = "" then throw (.functionFailed "spdx_license" "license identifier is empty")
  else do
    let context ← get
    let url ← Run.ofExcept (context.address context.licenseBase [s!"{id}.json"])
    let body ← Context.fetch url
    match (Json.Outline.ofText? body).bind LicenseDetails.ofPayload? with
    | some details => return details.record id
    | none => throw (.fetch url.text none "Malformed license record")

def license (v : Value) : Run Context Value :=
  let id := v.string?.getD ""
  Context.lookup s!"spdx:{id}" (fetchLicense id)

def licenseFunctions : List (String × Function Context) :=
  [("spdx_license", ⟨⟨[.string]⟩, fun args => license (args.head?.getD .null)⟩)]

end Manifest.Builtin
