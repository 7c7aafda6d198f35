import MultiDb.Verification.DistTxn.Accepted
import MultiDb.Verification.DistTxn.Rows
import MultiDb.Model.WireRecords

/-!
# Group commit and one commit per request

A round of the group-commit leader joins the batches of all waiting requests.
-/

namespace MultiDb

open Shared

variable {C : Codecs} {env : Env} {s s' : Store} {ops : List Op} {id : TxnId} {t : String}

section Round

variable {requests : List (Env × List Op)}

end Round

end MultiDb
