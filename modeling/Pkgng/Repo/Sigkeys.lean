import Pkgng.Package

/-!
# Signatures and certificates on their way out of the sandbox

The sandboxed child writes one record `<type(0|1)><namelen(int)><name><datalen(int)><data>`
for every signature and certificate of an archive; `pkg_repo_parse_sigkeys` reads them.
-/

set_option autoImplicit false

namespace Pkgng

abbrev Bytes := List UInt8

/-- The bytes of an `int` with this value, the low one first. -/
def intBytes (value : Nat) : Bytes :=
  [UInt8.ofNat value, UInt8.ofNat (value / 256), UInt8.ofNat (value / 65536),
    UInt8.ofNat (value / 16777216)]

/-- `*(int *)p`; `none` where fewer bytes are left. -/
def readInt : Bytes → Option Int
  | b0 :: b1 :: b2 :: b3 :: _ =>
      some (Int.bmod (b0.toNat + 256 * b1.toNat + 65536 * b2.toNat + 16777216 * b3.toNat)
        4294967296)
  | _ => none

/-- The characters before the terminating zero. -/
def cString (data : Bytes) : Bytes := data.takeWhile (· ≠ 0)

/-! ## Archives -/

/-- An entry; `none` where `archive_read_data` fails. -/
structure ArchiveEntry where
  pathname : Bytes
  data : Option Bytes

/-- `pkg_repo_file_has_ext`; the source compares in front of a shorter name as well. -/
def pkgRepoFileHasExt (path ext : Bytes) : Bool :=
  ext.length ≤ path.length && path.drop (path.length - ext.length) = ext

def sigExt : Bytes := [46, 115, 105, 103]

def pubExt : Bytes := [46, 112, 117, 98]

def signatureName : Bytes := [115, 105, 103, 110, 97, 116, 117, 114, 101]

/-- What a child answers, writes to its parent, and writes to the target file. -/
structure ChildRun where
  ok : Bool := false
  reply : Bytes := []
  written : Bytes := []
  /-- The child has returned from inside of the loop. -/
  ended : Bool := false

/-- A turn of the loop of `pkg_repo_meta_extract_signature_pubkey`. -/
def extractPubkeyEntry (needSig : Bool) (fname : Bytes) (run : ChildRun) (entry : ArchiveEntry) :
    ChildRun :=
  if run.ended then run
  else if needSig && entry.pathname = signatureName then
    match entry.data with
    | none => { run with ok := false, ended := true }
    | some sig => { run with ok := true, reply := run.reply ++ sig }
  else if entry.pathname = fname then
    match entry.data with
    | none => { run with ok := false, ended := true }
    | some content => { run with ok := run.ok || !needSig, written := run.written ++ content }
  else run

def pkgRepoMetaExtractSignaturePubkey (needSig : Bool) (fname : Bytes)
    (entries : List ArchiveEntry) : ChildRun :=
  entries.foldl (extractPubkeyEntry needSig fname) {}

def sigRecord (type : UInt8) (name data : Bytes) : Bytes :=
  type :: (intBytes name.length ++ name ++ (intBytes data.length ++ data))

/-- The entry's name without its extension. -/
def sigName (pathname : Bytes) : Bytes :=
  cString ((pathname.take (pathname.length - 4)).take (maxPathLen - 1))

/-- A turn of the loop of `pkg_repo_meta_extract_signature_fingerprints`. -/
def extractFingerprintsEntry (fname : Bytes) (run : ChildRun) (entry : ArchiveEntry) :
    ChildRun :=
  let hands (type : UInt8) : ChildRun :=
    match entry.data with
    | none => { run with ok := false, ended := true }
    | some data =>
        { run with ok := true, reply := run.reply ++ sigRecord type (sigName entry.pathname) data }
  if run.ended then run
  else if pkgRepoFileHasExt entry.pathname sigExt then hands 0
  else if pkgRepoFileHasExt entry.pathname pubExt then hands 1
  else if entry.pathname = fname then
    match entry.data with
    | none => { run with ok := false, ended := true }
    | some content => { run with written := run.written ++ content }
  else run

def pkgRepoMetaExtractSignatureFingerprints (fname : Bytes) (entries : List ArchiveEntry) :
    ChildRun :=
  entries.foldl (extractFingerprintsEntry fname) {}

/-! ## The reader -/

/-- `struct sig_cert`; `none` is a null pointer. -/
structure SigCert where
  name : Bytes
  sig : Option Bytes := none
  cert : Option Bytes := none
  trusted : Bool := false
deriving DecidableEq, Repr

/-- Where the data of a record goes. -/
inductive SigTarget
  | known (index : Nat)
  | new (name : Bytes)
deriving DecidableEq, Repr

inductive SigkeysState
  | type
  | flen (type : UInt8)
  | file (type : UInt8) (len : Int)
  | siglen (type : UInt8) (target : SigTarget)
  | sig (type : UInt8) (target : SigTarget) (len : Int)
deriving DecidableEq, Repr

/-- `HASH_FIND`, which meets the last of several entries with one key first. -/
def findSigCert (certs : List SigCert) (key : Bytes) : Option Nat :=
  (certs.reverse.findIdx? fun cert => cert.name = key).map fun back => certs.length - 1 - back

def sigTarget (certs : List SigCert) (name : Bytes) : SigTarget :=
  match findSigCert certs name with
  | some index => .known index
  | none => .new (cString name)

def SigCert.withData (cert : SigCert) (type : UInt8) (data : Bytes) : SigCert :=
  if type = 0 then { cert with sig := some data } else { cert with cert := some data }

def storeSigData (certs : List SigCert) (type : UInt8) (data : Bytes) :
    SigTarget → List SigCert
  | .known index => certs.modify index fun cert => cert.withData type data
  | .new name => certs ++ [SigCert.withData { name } type data]

/-- A turn of the loop at the input that is left: how far `p` moves, and the state after
it; `none` where the reply is refused. -/
def sigkeysStep (state : SigkeysState) (certs : List SigCert) (input : Bytes) :
    Option (Nat × SigkeysState × List SigCert) :=
  match state with
  | .type =>
      match input with
      | type :: _ => if type = 0 ∨ type = 1 then some (1, .flen type, certs) else none
      | [] => none
  | .flen type => do
      let len ← readInt input
      some (4, .file type len, certs)
  | .file type len =>
      if input.length < len ∨ len ≤ 0 then none
      else if maxPathLen ≤ len then none
      else
        some (len.toNat, .siglen type (sigTarget certs (input.take len.toNat)), certs)
  | .siglen type target => do
      let len ← readInt input
      some (4, .sig type target len, certs)
  | .sig type target len =>
      if input.length < len ∨ len ≤ 0 then none
      else
        some (len.toNat, .type, storeSigData certs type (input.take len.toNat) target)

/-- The loop; `skip` bytes are passed before the next turn. -/
def sigkeysFrom : Nat → SigkeysState → List SigCert → Bytes → Option (List SigCert)
  | _, _, certs, [] => some certs
  | skip + 1, state, certs, _ :: rest => sigkeysFrom skip state certs rest
  | 0, state, certs, byte :: rest =>
      match sigkeysStep state certs (byte :: rest) with
      | none => none
      | some (moved, state, certs) => sigkeysFrom (moved - 1) state certs rest

/-- `pkg_repo_parse_sigkeys`; `none` is `EPKG_FATAL`. -/
def pkgRepoParseSigkeys (input : Bytes) : Option (List SigCert) :=
  sigkeysFrom 0 .type [] input

/-! ## The reader reads what the child writes -/

theorem readInt_intBytes {value : Nat} (bound : value < 2147483648) (rest : Bytes) :
    readInt (intBytes value ++ rest) = some (value : Int) := by
  have cast : (((value % 256 : Nat) : Int) + 256 * ((value / 256 % 256 : Nat) : Int) +
      65536 * ((value / 65536 % 256 : Nat) : Int) +
      16777216 * ((value / 16777216 % 256 : Nat) : Int)) = value := by omega
  have read : readInt (intBytes value ++ rest) = some (Int.bmod
      (((value % 256 : Nat) : Int) + 256 * ((value / 256 % 256 : Nat) : Int) +
        65536 * ((value / 65536 % 256 : Nat) : Int) +
        16777216 * ((value / 16777216 % 256 : Nat) : Int)) 4294967296) := rfl
  rw [read, cast, Int.bmod_eq_of_le] <;> omega

end Pkgng
