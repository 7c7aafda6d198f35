import MultiDb.Model.CpStateMachine
import MultiDb.Model.Temporal

/-!
# Keys that begin with the length of a name

The parsers of such keys in `repl/ap.rs` and `repl/cp_live.rs`.  The answer `none` is an overflow or
an access out of bounds.
-/

namespace MultiDb

open Shared

/-- A table name behind its length in `width` bytes, and the key behind the name. -/
def decodeTableKey (utf8Error : Bytes → String) (width : ℕ) (short truncated : String)
    (bytes : Bytes) : Option (Result (String × Bytes)) :=
  if bytes.length < width then
    some (.error (.corruption short))
  else do
    let tableLen := beNat (← byteSlice bytes 0 width)
    let tableEnd ← usizeAdd width tableLen
    if bytes.length < tableEnd then
      return .error (.corruption truncated)
    else
      let name ← byteSlice bytes width tableEnd
      match utf8? name with
      | none => return .error (.corruption (utf8Error name))
      | some table => return .ok (table, ← byteSlice bytes tableEnd bytes.length)

/-- `decode_version_key` of `repl/ap.rs`. -/
def decodeVersionKey (utf8Error : Bytes → String) (bytes : Bytes) :
    Option (Result (String × Bytes)) :=
  decodeTableKey utf8Error 8 "AP version key is shorter than table length"
    "AP version key is shorter than table name" bytes

/-- `decode_mirror_key`. -/
def decodeMirrorKeyChecked (utf8Error : Bytes → String) (bytes : Bytes) :
    Option (Result (String × Bytes)) :=
  decodeTableKey utf8Error 4 "mirror key must contain table length"
    "mirror key table bytes are truncated" bytes

end MultiDb
