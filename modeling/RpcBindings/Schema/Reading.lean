import RpcBindings.Rust.Reader
import RpcBindings.Schema.Type

/-!
From Rust types to schema types.

`Option` and the sequences become wrappers, boxes, references and parentheses are looked through,
and any other path without arguments counts by its last name. What is left counts by its text.
-/

namespace RpcBindings.SchemaType

open Rust

/-- The schema type of a Rust type. -/
def ofRust : RustType → SchemaType
  | .path _ "Option" (.angle _ [.type t] _) => .optional (ofRust t)
  | .path _ "Vec" (.angle _ [.type t] _) => .sequence (ofRust t)
  | .path _ "Box" (.angle _ [.type t] _) => ofRust t
  | .path _ name .none => .scalar name
  | .path qualifier name (.angle opening args trailing) =>
    .scalar (RustType.path qualifier name (.angle opening args trailing)).text
  | .projection qualifier name args => .scalar (RustType.projection qualifier name args).text
  | .reference _ elem => ofRust elem
  | .slice elem => .sequence (ofRust elem)
  | .array elem _ => .sequence (ofRust elem)
  | .paren elem => ofRust elem
  | .other text => .scalar text

/-- Reads a Rust type as a schema type. -/
def ofText? (text : String) : Option SchemaType :=
  (RustType.ofText? text).map ofRust

end RpcBindings.SchemaType
