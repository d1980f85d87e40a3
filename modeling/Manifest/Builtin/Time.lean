import Manifest.Function.Context
import Manifest.Function.Registry

/-! Functions on time: the present moment, and writing moments by a format. -/
namespace Manifest.Builtin

/-- A moment, spelled by the first argument, written by a format. The spelling is checked first. -/
def formatMoment (name : String) (v : Value) (format : String) : Except Error Value :=
  let s := v.string?.getD ""
  match Moment.ofText? s with
  | none => .error (.functionFailed name s!"'{s}' is not an ISO 8601 datetime")
  | some m =>
    match m.format? format with
    | none => .error (.functionFailed name s!"'{format}' is not a valid strftime format")
    | some written => .ok (.string written)

def environmental (f : Environment → String) : Function Context :=
  ⟨⟨[]⟩, fun _ => Run.ofStep fun c => (.ok (.string (f c.environment)), c)⟩

def timeFunctions : List (String × Function Context) :=
  let formatted (name format : String) : Function Context :=
    ⟨⟨[.string]⟩, fun args => Run.ofExcept (formatMoment name (args.head?.getD .null) format)⟩
  [("now_utc", environmental Environment.universalTime),
    ("now_local", environmental Environment.localTime),
    ("format_datetime", ⟨⟨[.string, .string]⟩, fun args =>
      Run.ofExcept (formatMoment "format_datetime" (args.head?.getD .null)
        ((args[1]?.bind Value.string?).getD ""))⟩),
    ("year", formatted "year" "%Y"),
    ("date", formatted "date" "%Y-%m-%d")]

end Manifest.Builtin
