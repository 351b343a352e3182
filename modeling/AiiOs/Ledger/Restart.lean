import AiiOs.Ledger.Append
import AiiOs.Ledger.Seal
import AiiOs.Lib.LastLine

/-! internal/ledger: `OpenVerified`, which proves the record before it opens it and cuts an
incomplete final line off, and `RecoverSeal`. -/

namespace AiiOs.Ledger
open Lib

/-! ### The incomplete final line -/

/-- Where the complete lines end; blank text behind them is let be. -/
def completeTailEnd (t : Bytes) : Nat := if t = [] ∨ t.getLast? = some newline then t.length
  else if allSpace (openEnd t) then t.length
  else (closedPart t).length

inductive TrimIo
  | fine
  | preserveFails
  | truncateFails
  | syncFails
  deriving DecidableEq, Repr

structure Trim where
  torn : List Bytes
  tail : Bytes
  ok : Bool
  deriving DecidableEq, Repr

def trimPreservedSuffix (t : Bytes) (cut : Nat) : TrimIo → Trim
  | .fine => ⟨[t.drop cut], t.take cut, true⟩
  | .preserveFails => ⟨[], t, false⟩
  | .truncateFails => ⟨[t.drop cut], t, false⟩
  | .syncFails => ⟨[t.drop cut], t.take cut, false⟩

/-- The suffix is only touched where there is one. -/
def trimTail (t : Bytes) (io : TrimIo) : Trim :=
  if completeTailEnd t < t.length then trimPreservedSuffix t (completeTailEnd t) io
  else ⟨[], t, true⟩

/-! ### OpenVerified -/

inductive OpenVerifiedError (ε ψ χ : Type)
  | unavailable
  | verify (e : VerifyError ε ψ)
  | noRecords
  | check (e : χ)
  | trim
  | open (e : OpenError)
  | openFails
  | boundaryDiffers
  deriving DecidableEq, Repr

inductive RestartIo
  | fine
  | unavailable
  | trim (io : TrimIo)
  | openFails
  deriving DecidableEq, Repr

def RestartIo.trimIo : RestartIo → TrimIo
  | .trim io => io
  | _ => .fine

/-- How a restart ends: the ledger with the number of records proved, or the error; what
was preserved; and the files it leaves. -/
structure Restart (α : Type) where
  result : α
  torn : List Bytes
  dir : Dir

section
variable {τ ε ν ψ χ : Type} (p : Primitives) (pubKey : Bytes) (heads : Option (HeadVerifier τ ε))
  (visit : ν → Event → Except ψ ν) (check : Nat → Except χ Unit)

def boundaryVisit (s : ν × Boundary) (evt : Event) : Except ψ (ν × Boundary) :=
  match visit s.1 evt with
  | .error e => .error e
  | .ok v => .ok (v, ⟨evt.seq, entryHash p.sha256 evt⟩)

section
variable (d : Dir) (h : τ) (v : ν)

def verifyComplete : Except (VerifyError ε ψ) (Nat × Boundary) := let t := d.tail.getD []
  match verifyChain p pubKey heads (boundaryVisit p visit)
      (stream p.sha256 d (some (t.take (completeTailEnd t)))) h (v, ⟨0, []⟩) with
  | .error e => .error e
  | .ok s => .ok (s.n, s.visited.2)

/-- What `OpenVerified` asks of the files before it changes any. -/
def beforeCleanup : Except (OpenVerifiedError ε ψ χ) (Nat × Boundary) :=
  match verifyComplete p pubKey heads visit d h v with
  | .error e => .error (.verify e)
  | .ok (count, boundary) =>
    if count = 0 then .error .noRecords
    else
      match check boundary.seq with
      | .error e => .error (.check e)
      | .ok () => .ok (count, boundary)

def openVerified (io : RestartIo) : Restart (Except (OpenVerifiedError ε ψ χ) (LedgerState × Nat)) :=
  if io = .unavailable then ⟨.error .unavailable, [], d⟩
  else
    match beforeCleanup p pubKey heads visit check d h v with
    | .error e => ⟨.error e, [], d⟩
    | .ok (count, boundary) =>
      -- a record without a tail file has nothing to trim
      let trim := trimTail (d.tail.getD []) io.trimIo
      let d := { d with tail := d.tail.map fun _ => trim.tail }
      if !trim.ok then ⟨.error .trim, trim.torn, d⟩
      else if io = .openFails then ⟨.error .openFails, trim.torn, sweepDebris d⟩
      else
        match openLedger p.sha256 d with
        | .error e => ⟨.error (.open e), trim.torn, sweepDebris d⟩
        | .ok (l, d) =>
          if l.lastSeq ≠ boundary.seq ∨ l.lastHash ≠ boundary.hash then
            ⟨.error .boundaryDiffers, trim.torn, d⟩
          else ⟨.ok (l, count), trim.torn, d⟩

end

/-! ### RecoverSeal -/

inductive RecoverStage
  | openTail
  | syncDir
  | trim (io : TrimIo)
  | closeTail
  | syncFile
  | closeFile
  | reopen
  deriving DecidableEq, Repr

inductive RecoverError (ε : Type)
  | frozen (r : FrozenReason)
  | closed
  | io (stage : RecoverStage)
  | verify (e : VerifyError ε Empty)
  | integrity (e : VerifyError ε Empty)
  | boundary (verified acknowledged : Boundary)
  | segments (e : RecordError)
  | segment (e : RecordError)
  | interruptedSeal (e : RecordError)
  deriving DecidableEq, Repr

def inconclusive : VerifyError ε Empty → Bool
  | .visit _ => false
  | .failure f =>
    match f.requirement, heads with
    | .sealedWithoutWitness, _ => true
    | .witnessHead e, some hv => hv.keyUnknown e
    | _, _ => false

def RecoverStage.trimIo : Option RecoverStage → TrimIo
  | some (.trim io) => io
  | _ => .fine

def sealedBoundary (d : Dir) : Except (RecoverError ε) (List Segment × Boundary) :=
  match listSegments d with
  | .error e => .error (.segments e)
  | .ok segs =>
    match segs.getLast? with
    | none => .ok (segs, ⟨0, []⟩)
    | some newest =>
      match segmentEnd p.sha256 newest with
      | .error e => .error (.segment e)
      | .ok (seq, hash) => .ok (segs, ⟨seq, hash⟩)

def reconciledTail (segs : List Segment) (t : Bytes) : Except (RecoverError ε) Bytes :=
  match segs.getLast? with
  | none => .ok t
  | some newest =>
    match reconcileTail p.sha256 newest t with
    | .error e => .error (.interruptedSeal e)
    | .ok t => .ok t

/-- The recovery of files that have been proved and trimmed to `t`. -/
def recoverFiles (l : LedgerState) (d : Dir) (t : Bytes) (fault : Option RecoverStage) :
    Except (RecoverError ε) LedgerState × Dir :=
  if fault = some .closeTail then (.error (.io .closeTail), d)
  else
    match sealedBoundary p d with
    | .error e => (.error e, d)
    | .ok (segs, sealedEnd) =>
      if fault = some .syncFile then (.error (.io .syncFile), d)
      else if fault = some .closeFile then (.error (.io .closeFile), d)
      else
        match reconciledTail p segs t with
        | .error e => (.error e, sweepDebris d)
        | .ok t =>
          let d := { sweepDebris d with tail := some t }
          if fault = some .reopen then (.error (.io .reopen), d)
          else
            (.ok { l with
              segments := segs, sealedSeq := sealedEnd.seq, sealedHash := sealedEnd.hash
              sealErr := none }, d)

def refuseSealIntegrity (l : LedgerState) : LedgerState := { l with frozenReason := some .tailIntegrity }

def recoverSeal (l : LedgerState) (d : Dir) (h : τ) (fault : Option RecoverStage) :
    Restart (Except (RecoverError ε) Unit × LedgerState) :=
  match l.frozenReason with
  | some r => ⟨(.error (.frozen r), l), [], d⟩
  | none =>
    if l.closed then ⟨(.error .closed, l), [], d⟩
    else if l.sealErr = none then ⟨(.ok (), l), [], d⟩
    else if fault = some .openTail then ⟨(.error (.io .openTail), l), [], d⟩
    else
      match verifyComplete p pubKey heads (fun (_ : Unit) _ => .ok ()) d h () with
      | .error e =>
        if inconclusive heads e then ⟨(.error (.verify e), l), [], d⟩
        else ⟨(.error (.integrity e), refuseSealIntegrity l), [], d⟩
      | .ok (_, boundary) =>
        if boundary.seq ≠ l.lastSeq ∨ boundary.hash ≠ l.lastHash then
          ⟨(.error (.boundary boundary ⟨l.lastSeq, l.lastHash⟩), refuseSealIntegrity l), [], d⟩
        else if fault = some .syncDir then ⟨(.error (.io .syncDir), l), [], d⟩
        else
          let io := RecoverStage.trimIo fault
          let trim := trimTail (d.tail.getD []) io
          let d := { d with tail := some trim.tail }
          if !trim.ok then ⟨(.error (.io (.trim io)), l), trim.torn, d⟩
          else
            match recoverFiles p l d trim.tail fault with
            | (.error e, d) => ⟨(.error e, l), trim.torn, d⟩
            | (.ok l, d) => ⟨(.ok (), l), trim.torn, d⟩

end

end AiiOs.Ledger
