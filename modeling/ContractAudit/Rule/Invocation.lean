import ContractAudit.Rule.Basic

/-! # Cross-program invocations -/

namespace ContractAudit.Invocation
open Source Text

def colons : Pattern := .blanks ++ .lit "::" ++ .blanks

def call : Pattern :=
  .oneOf
    [.wordEdge ++ .oneOf (["invoke_signed", "invoke", "invoke_signed_unchecked",
        "invoke_unchecked"].map .lit) ++ .opening,
      .wordEdge ++ .lit "CpiContext" ++ colons ++ .lit "new" ++ .opt (.lit "_with_signer") ++ .opening,
      .wordEdge ++ .some1 .wordChar ++ colons ++ .lit "cpi" ++ colons ++ .some1 .wordChar ++ .opening]

def stateWrite : Pattern :=
  .oneOf
    [.lit "**" ++ .blanks ++ .some1 (.one fun c => isWordChar c || c == '.') ++ .dot
        ++ .oneOf [.lit "try_borrow_mut_lamports" ++ .emptyCall ++ .blanks ++ .opt (.char '?'),
          .lit "lamports" ++ .dot ++ .lit "borrow_mut" ++ .emptyCall],
      .char '.' ++ .blanks
        ++ .oneOf [.lit "try_borrow_mut_data", .lit "data" ++ .dot ++ .lit "borrow_mut"] ++ .opening,
      .char '.' ++ .blanks ++ .oneOf [.lit "serialize", .lit "pack_into_slice"] ++ .opening ++ .blanks
        ++ .char '&' ++ .blanks ++ .lit "mut" ++ .wordEdge,
      .wordEdge ++ .some1 .wordChar ++ colons ++ .lit "pack" ++ .opening,
      .wordEdge ++ .lit "ctx" ++ .dot ++ .lit "accounts" ++ .dot ++ .some1 .wordChar
        ++ .some1 (.dot ++ .some1 .wordChar) ++ .blanks ++ .opt (.anyOf "+-*/") ++ .char '='
        ++ .notBefore "="]

def writesAfter (m : Model) (f : Function) : (first : Option Nat) → List Line → List Sighting
  | _, [] => []
  | none, l :: s =>
    writesAfter m f (if call.occursIn l.code.toList then some l.number else none) s
  | some first, l :: s =>
    let rest := writesAfter m f (some first) s
    if !call.occursIn l.code.toList && stateWrite.occursIn l.code.toList then
      .onLine m f l ("State modified after CPI on line " ++ toString first ++ " in " ++ f.qualifiedName)
        [("cpi_line", .int first)] :: rest
    else rest

def lateSightings (m : Model) : List Sighting :=
  (m.functions.filter (!m.isTestCode ·)).flatMap fun f => writesAfter m f none (m.bodyLines f)

def stateChangeAfterCall : Detector where
  implementation := "StateChangeAfterCpiRule"
  sightings := fun _ unit _ => .ok (lateSightings unit.model)
  info :=
    { id := "SOL-005"
      title := "State change after CPI"
      defaultSeverity := .medium
      description := "Account data or lamports are modified after a cross-program invocation. "
        ++ "The callee can observe stale state or re-enter through another program."
      remediation := "Update program state before invoking other programs "
        ++ "(checks-effects-interactions)." }

def nativeProgram : Pattern :=
  .oneOf
    [.lit "program_id" ++ .blanks ++ .char ':' ++ .blanks ++ .opt (.char '*') ++ .blanks
        ++ .mark 1 .name ++ .dot ++ .lit "key" ++ .wordEdge,
      .lit "Instruction" ++ colons ++ .lit "new_with_" ++ .some1 .wordChar ++ .opening ++ .blanks
        ++ .opt (.char '*') ++ .blanks ++ .mark 1 .name ++ .dot ++ .lit "key" ++ .wordEdge]

def contextProgram : Pattern :=
  .lit "CpiContext" ++ colons ++ .lit "new" ++ .opt (.lit "_with_signer") ++ .opening ++ .blanks
    ++ .lit "ctx" ++ .dot ++ .lit "accounts" ++ .dot ++ .mark 1 .name

def verifications (account : String) : List Pattern :=
  let name := Pattern.lit account
  [name ++ .dot ++ .lit "key" ++ .blanks ++ .opt (.char '(' ++ .blanks ++ .char ')') ++ .blanks
      ++ .anyOf "!=" ++ .char '=',
    .anyOf "!=" ++ .char '=' ++ .blanks ++ .opt (.char '*') ++ .blanks ++ name ++ .dot ++ .lit "key"
      ++ .wordEdge,
    .lit "require_keys_eq!" ++ .opening ++ .many (.noneOf ";") ++ .wordEdge ++ name ++ .wordEdge,
    .lit "check_program_account" ++ .opening ++ .blanks ++ .opt (.char '*') ++ .blanks ++ name
      ++ .wordEdge]

def isVerified (account : String) (body : List Char) : Bool :=
  (verifications account).any (·.occursIn body)

def isUnverifiedField (index : Index) (f : Function) (field : String) : Bool :=
  ((do
    let (_, s) ← index.struct? (← f.contextStruct?)
    let d ← s.field? field
    some (["AccountInfo", "UncheckedAccount"].contains d.typeName
      && !(d.hasAttribute "address" || d.hasAttribute "constraint"))) : Option Bool).getD false

def unverifiedCall? (index : Index) (f : Function) (code : List Char) : Option String :=
  match nativeProgram.search code with
  | some m => some (m.groupText 1) |>.filter (!isVerified · f.body.toList)
  | none => match contextProgram.search code with
    | some m => some (m.groupText 1) |>.filter fun a =>
        isUnverifiedField index f a && !isVerified a f.body.toList
    | none => none

def arbitrarySightings (m : Model) (index : Index) : List Sighting :=
  (m.functions.filter (!m.isTestCode ·)).flatMap fun f => (m.bodyLines f).filterMap fun l =>
    (unverifiedCall? index f l.code.toList).map fun account =>
      .onLine m f l ("CPI target '" ++ account ++ "' is not verified in " ++ f.qualifiedName)
        [("account", .str account)]

def arbitraryCall : Detector where
  implementation := "ArbitraryCpiRule"
  sightings := fun _ unit index => .ok (arbitrarySightings unit.model index)
  info :=
    { id := "SOL-006"
      title := "Arbitrary CPI"
      defaultSeverity := .high
      description := "The program invoked through CPI is taken from a caller-supplied account "
        ++ "without verifying its address, so an attacker can substitute a malicious program."
      remediation := "Use Program<'info, T> or compare the account key with the expected program "
        ++ "id." }

end ContractAudit.Invocation
