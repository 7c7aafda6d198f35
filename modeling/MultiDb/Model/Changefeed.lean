import MultiDb.Model.History
import MultiDb.Model.SingleNode

/-!
# Change feeds

`cdc.rs`.  Commits and garbage collection may run between any two reads of a poll, so a poll is a
function of the store that each of its reads sees.  The answer `none` is an overflow, where a build
with overflow checks panics.
-/

namespace MultiDb

open Shared

/-- `String::from_utf8(bytes).ok()`. -/
def utf8? (bytes : Bytes) : Option String :=
  String.fromUTF8? ⟨bytes.toArray⟩

def usizeAdd (a b : ℕ) : Option ℕ :=
  if a + b < 2 ^ 64 then some (a + b) else none

/-- `&bytes[start..stop]`. -/
def byteSlice (bytes : Bytes) (start stop : ℕ) : Option Bytes :=
  if start ≤ stop ∧ stop ≤ bytes.length then some ((bytes.take stop).drop start) else none

def parseTableNameFromKey (key : Bytes) : Option (Option String) :=
  if key.length < 8 then
    some none
  else do
    let stop ← usizeAdd 8 (beNat (key.take 8))
    -- `key.get(8..stop)` refuses a range that is out of bounds
    return (byteSlice key 8 stop).bind utf8?

variable (F : FeedCodecs)

def commitLogWindow (s : Store) (first last : TxnId) : List (Bytes × Bytes) :=
  range s commitLogTable (encodeTxnId first) ((checkedSucc last).elim [] encodeTxnId)

end MultiDb
