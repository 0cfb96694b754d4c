import RpcBindings.Casing
import RpcBindings.Text.Affix

/-!
Namespaces of RPC interfaces and the names of the Go types that serve them.
-/

namespace RpcBindings.Namespace

open Text Casing

/-- What is left of a text without `affix` at one end, unless nothing would be left. -/
def shorten (strip? : List Char → Option (List Char)) (cs : List Char) : List Char :=
  match strip? cs with
  | some (c :: rest) => c :: rest
  | _ => cs

/-- The namespace that an interface name implies: `RpcTxpool` and `TxpoolRpc` both serve
`Txpool`. -/
def ofInterface (name : String) : String :=
  let rpc := "Rpc".toList
  .ofList (shorten (stripSuffix? rpc) (shorten (stripPrefix? rpc) name.toList))

/-- Whether a text begins a new word of a camel case name. -/
def startsWord : List Char → Bool
  | [] => false
  | c :: _ => c.isUpper

/-- An exported function name without its namespace. The namespace goes only when a new word
follows, so `Txpool` shortens `TxpoolStatus` and leaves `Txpools` alone. -/
def strip (exported nspace : String) : String :=
  let ns := (upperCamel nspace).toList
  if ns.isEmpty then exported
  else match stripPrefix? ns exported.toList with
    | some rest => if startsWord rest then .ofList rest else exported
    | none => exported

/-- A type name with one pair of affixes exchanged for another; an affix that is not there is
not taken away. -/
def swapAffixes (name oldPre oldSuf newPre newSuf : String) : String :=
  let core := (stripPrefix? oldPre.toList name.toList).getD name.toList
  let core := (stripSuffix? oldSuf.toList core).getD core
  newPre ++ .ofList core ++ newSuf

end RpcBindings.Namespace
