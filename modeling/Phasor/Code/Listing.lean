import Phasor.Binary64
import Phasor.Code.Basic

namespace Phasor

def ValueType.name : ValueType → String
  | float => "f64"
  | address => "i64"

def FloatOp.name : FloatOp → String
  | add => "fadd"
  | sub => "fsub"
  | mul => "fmul"

namespace Listing

def commaSeparated (items : List String) : String := ", ".intercalate items

def valueName (v : Nat) : String := s!"v{v}"

def valueNames (vs : List Nat) : String := commaSeparated (vs.map valueName)

def signatureText (parameters : List ValueType) : String :=
  "(" ++ commaSeparated (parameters.map ValueType.name) ++ ") -> i64 system_v"

def hexText (width n : Nat) : String :=
  let ds := Nat.toDigits 16 n
  String.ofList (List.replicate (width - ds.length) '0' ++ ds)

def undefinedText (fraction : Nat) : String :=
  let payload := fraction % 1 <<< 51
  let payloadText := ":0x" ++ hexText 1 payload
  if fraction < 1 <<< 51 then "sNaN" ++ payloadText
  else if payload = 0 then "NaN"
  else "NaN" ++ payloadText

def floatText (bits : UInt64) : String :=
  let pattern := bits.toNat % 1 <<< 63
  let positive := bits.toNat < 1 <<< 63
  let sign := if positive then "" else "-"
  let signed := if positive then "+" else "-"
  let field := pattern >>> 52
  let fraction := pattern % 1 <<< 52
  if Binary64.infinity < pattern then signed ++ undefinedText fraction
  else if pattern = Binary64.infinity then signed ++ "Inf"
  else if pattern = 0 then sign ++ "0.0"
  else if field = 0 then sign ++ "0x0." ++ hexText 13 fraction ++ "p-1022"
  else sign ++ "0x1." ++ hexText 13 fraction ++ "p" ++ toString ((field : Int) - 1023)

def addresses (body : List Instr) : List Address :=
  body.foldl (fun seen i =>
    match i with
    | .address a => if a ∈ seen then seen else seen ++ [a]
    | _ => seen) []

def instrText (known : List Address) : Instr → String
  | .address a => s!"iconst.i64 @{known.idxOf a}"
  | .const bits => "f64const " ++ floatText bits
  | .arith op a b => op.name ++ " " ++ valueNames [a, b]
  | .load .re base => "load.f64 notrap aligned " ++ valueName base
  | .load .im base => "load.f64 notrap aligned " ++ valueName base ++ "+8"
  | .call f args => s!"call fn{f}(" ++ valueNames args ++ ")"
  | .callEntry s target args =>
    s!"call_indirect sig{s}, " ++ valueName target ++ "(" ++ valueNames args ++ ")"
  | .ret v => "return " ++ valueName v

def bodyLines (known : List Address) : (next : Nat) → List Instr → List String
  | _, [] => []
  | next, .ret v :: rest => ("    " ++ instrText known (.ret v)) :: bodyLines known next rest
  | next, i :: rest =>
    ("    " ++ valueName next ++ " = " ++ instrText known i) :: bodyLines known (next + 1) rest

def numbered (f : Nat → α → String) (items : List α) : List String :=
  items.zipIdx.map (fun (a, k) => f k a)

def lines (parameters : List ValueType) (code : Code) : List String :=
  let declarations :=
    numbered (fun k s => s!"    sig{k} = " ++ signatureText s) code.signatures
      ++ numbered (fun k i => s!"    fn{k} = u0:{k + 1} sig{i.signature}") code.imports
  let gap := if declarations.isEmpty then [] else [""]
  let parameterText := commaSeparated (numbered (fun k t => valueName k ++ ": " ++ t.name) parameters)
  ["function u0:0" ++ signatureText parameters ++ " \x7b"] ++ declarations ++ gap
    ++ ["block0(" ++ parameterText ++ "):"]
    ++ bodyLines (addresses code.body) parameters.length code.body ++ ["\x7d"]

end Listing

def Code.toText (code : Code) (parameters : List ValueType) : String :=
  String.join ((Listing.lines parameters code).map (· ++ "\n"))

end Phasor
