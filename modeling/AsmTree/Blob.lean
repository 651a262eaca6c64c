import AsmTree.Table.Build
import AsmTree.Blob.Wire

/-!
# Table blobs

A blob is a parse table in bytes: four letters, the version of the layout, then the fields of the
table in the wire format. Bytes behind the last field are ignored. A table is accepted only if it
was made for this version of the grammar and every number in it names something that exists.
-/

namespace AsmTree

namespace Blob

open Wire

/-- The first bytes of every blob: `RGBT`. -/
def magic : Bytes := [0x52, 0x47, 0x42, 0x54]

/-- The version of the layout. -/
def schemaVersion : Nat := 1

/-- Number of bytes in front of the table. -/
def headerSize : Nat := 6

/-- Why bytes are no table. -/
inductive Malformed where
  | shortHeader
  | badMagic (found : Bytes)
  | wire (error : Wire.Error)
  | fault (fault : TableFault)
deriving DecidableEq, Repr

/-- Two lower-case hexadecimal digits. -/
def hexByte (b : UInt8) : String :=
  String.ofList [Nat.digitChar (b.toNat / 16), Nat.digitChar (b.toNat % 16)]

/-- The wording of a malformed blob. -/
def Malformed.message : Malformed → String
  | .shortHeader => "blob shorter than its header"
  | .badMagic found => "bad magic [" ++ ", ".intercalate (found.map hexByte) ++ "]"
  | .wire e => e.message
  | .fault f => f.message

/-! ## Writing -/

/-- A target in a table: none, or the next higher number. -/
def putTarget (target : Option Nat) : Bytes := putNat ((target.map (· + 1)).getD 0)

/-- A kind by its place. -/
def putKind (k : Kind) : Bytes := putNat k.index

/-- A production. -/
def putReduction (r : Reduction) : Bytes :=
  putNat r.lhs ++ putNat r.length ++ putOption putKind r.kind

/-- The fields of a table. -/
def putTable (t : ParseTable) : Bytes :=
  putNat t.grammarVersion ++ putNat t.terminalCount ++ putNat t.nonterminalCount ++
  putList (fun a => putNat a.code.toNat) t.actions.toList ++
  putList putTarget t.gotos.toList ++
  putList putTarget t.defaults.toList ++
  putList putReduction t.productions.toList ++
  putList (putOption putKind) t.contexts.toList ++
  putOption putNat t.resumeState ++
  putList putKind t.extras

/-! ## Reading -/

/-- A target in a table. -/
def getTarget : Reader (Option Nat) := do
  match ← getNat 32 with
  | 0 => return none
  | n + 1 => return some n

/-- An array of targets. -/
def getTargets : Reader (SparseArray Nat) := do return .ofList (← getArray getTarget).toList

/-- A kind by its place. -/
def getKind : Reader Kind := do
  let i ← getNat 32
  match Kind.ofIndex? i with
  | some k => return k
  | none => if i = Kind.reserved.index then return .reserved else throw .badVariant

/-- A production. -/
def getReduction : Reader Reduction := do
  let lhs ← getNat 16
  let length ← getNat 16
  return { lhs, length, kind := ← getOption getKind }

/-- The fields of a table. -/
def getTable : Reader ParseTable := do
  let grammarVersion ← getNat 32
  let terminalCount ← getNat 32
  let nonterminalCount ← getNat 32
  let actions ← getArray (do return (⟨(← getNat 32).toUInt32⟩ : Action))
  let gotos ← getTargets
  let defaults ← getArray getTarget
  let productions ← getArray getReduction
  let contexts ← getArray (getOption getKind)
  let resumeState ← getOption (getNat 32)
  let extras ← getArray getKind
  return {
    grammarVersion, terminalCount, nonterminalCount, actions, gotos, defaults, productions,
    contexts, resumeState, extras := extras.toList }

end Blob

/-- Why there is no parse table. -/
inductive LoadError where
  | schemaMismatch (found : Nat)
  | grammarVersionMismatch (found : Nat)
  | malformed (cause : Blob.Malformed)
  | construction (error : GrammarError)
deriving DecidableEq, Repr

/-- The wording of a load error. -/
def LoadError.message : LoadError → String
  | .schemaMismatch found =>
    s!"table blob has schema version {found}, this build reads version {Blob.schemaVersion}"
  | .grammarVersionMismatch found =>
    s!"table was built for grammar version {found}, this build expects version {Grammar.version}"
  | .malformed cause => "malformed table blob: " ++ cause.message
  | .construction e => "grammar construction failed: " ++ e.message

namespace ParseTable

/-- The blob of a table. -/
def toBlob (t : ParseTable) : Wire.Bytes :=
  Blob.magic ++ [Blob.schemaVersion.toUInt8, (Blob.schemaVersion / 256).toUInt8] ++ Blob.putTable t

/-- Accepts a table that was made for this version of the grammar and has no fault. -/
def accept (t : ParseTable) : Except LoadError ParseTable :=
  if t.grammarVersion ≠ Grammar.version then .error (.grammarVersionMismatch t.grammarVersion)
  else match t.fault? with
    | some fault => .error (.malformed (.fault fault))
    | none => .ok t

/-- The table of a blob. -/
def ofBlob (bytes : Wire.Bytes) : Except LoadError ParseTable :=
  if bytes.length < Blob.headerSize then .error (.malformed .shortHeader)
  else match bytes with
    | a :: b :: c :: d :: low :: high :: rest =>
      if [a, b, c, d] ≠ Blob.magic then .error (.malformed (.badMagic [a, b, c, d]))
      else
        let schema := low.toNat + 256 * high.toNat
        if schema ≠ Blob.schemaVersion then .error (.schemaMismatch schema)
        else match Blob.getTable rest with
          | .ok (t, _) => t.accept
          | .error e => .error (.malformed (.wire e))
    | _ => .error (.malformed .shortHeader)

/-- The parse table of a grammar, or why there is none. -/
def ofGrammar (g : Grammar) : Except LoadError ParseTable :=
  (ParseTable.build g).mapError .construction

end ParseTable

end AsmTree
