import MultiDb.Model.Records
import MultiDb.Shared.Wire

/-!
# Records in the format of `postcard`

The binary format of `postcard` at the records of the transaction layer.
-/

namespace MultiDb

open Shared

/-- A record whose parts are written one after the other. -/
def Postcard.ofWire {α β : Type} (w : Wire α) (write : β → Except String α) (read : α → Option β)
    (h : ∀ {b a}, write b = .ok a → read a = some b) : Postcard β where
  toAllocvec record := (write record).map w.encode
  takeFromBytes bytes :=
    ((w.take bytes).bind fun (a, rest) => (read a).map (·, rest)).elim (.error "") .ok
  take_toAllocvec {record bytes} henc := by
    obtain ⟨a, ha, rfl⟩ := map_eq_ok_iff.mp henc
    have htake := w.take_encode a []
    rw [List.append_nil] at htake
    simp only [htake, Option.bind_some, h ha]
    rfl

def wireU64 : Wire UInt64 :=
  Wire.nat.via UInt64.toNat (fun n => some (UInt64.ofNat n)) fun n => by simp

def wireU32 : Wire UInt32 :=
  Wire.nat.via UInt32.toNat (fun n => some (UInt32.ofNat n)) fun n => by simp

def wireString : Wire String :=
  Wire.blob.via strBytes (fun bytes => String.fromUTF8? ⟨bytes.toArray⟩) fromUTF8_strBytes

def wireMvcc : Postcard MvccRecord :=
  .ofWire Wire.blob.option (fun record => .ok record.value) (fun value => some { value })
    fun h => by
    cases h
    rfl

def wireHlcParts : Wire HlcTimestamp :=
  (wireU64.pair wireU32).via (fun hlc => (hlc.physicalMs, hlc.logical))
    (fun parts => some { physicalMs := parts.1, logical := parts.2 }) fun _ => rfl

def wireHlc : Postcard HlcTimestamp :=
  .ofWire wireHlcParts .ok some fun h => by rw [Except.ok.inj h]

def wireCommitLogWrite : Wire CommitLogWrite :=
  (wireString.pair (Wire.blob.pair Wire.blob.option)).via
    (fun write => (write.table, write.key, write.value))
    (fun parts => some { table := parts.1, key := parts.2.1, value := parts.2.2 }) fun _ => rfl

/-- A time is written as seconds and nanoseconds; times before the epoch are refused. -/
def wireCommitLog : Postcard CommitLogRecord :=
  .ofWire (wireU64.pair ((Wire.nat.pair Wire.nat).pair
      (wireHlcParts.option.pair wireCommitLogWrite.list)))
    (fun record =>
      if record.committedAt < 0 then .error "" else
        let nanos := record.committedAt.toNat
        .ok (record.txnId, (nanos / 10 ^ 9, nanos % 10 ^ 9), record.hlc, record.writes))
    (fun (txnId, (seconds, nanos), hlc, writes) =>
      some { txnId, committedAt := Int.ofNat (seconds * 10 ^ 9 + nanos), hlc, writes })
        fun {record a} h => by
    split at h
    · contradiction
    · rename_i hlate
      cases h
      have htime : record.committedAt.toNat / 10 ^ 9 * 10 ^ 9 + record.committedAt.toNat % 10 ^ 9 =
          record.committedAt.toNat := Nat.div_add_mod' _ _
      simp only [htime, Int.ofNat_eq_natCast, Int.toNat_of_nonneg (not_lt.mp hlate)]

/-- An environment without faults whose clocks stand at the epoch. -/
def epochEnv : Env :=
  { committedAt := 0, tickedAt := 0 }

/-- The binary records, for runs that write no JSON record and hash no key. -/
def wireCodecs : Codecs where
  mvcc := wireMvcc
  commitLog := wireCommitLog
  legacyCommitLog := fun _ => .error ""
  hlc := wireHlc
  prepared := .ofTable [] List.nodup_nil
  decision := .ofTable [] List.nodup_nil
  finished := .ofTable [] List.nodup_nil
  migration := .ofTable [] List.nodup_nil
  utf8Error := fun _ => ""
  blake3 := fun _ => []

end MultiDb
