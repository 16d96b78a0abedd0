import ContractAudit.Rule.Basic

/-! # Account checks -/

namespace ContractAudit.Accounts
open Source Text
variable (names : List String) (m : Model)

def authorityNames : List String :=
  ["authority", "owner", "admin", "signer", "payer", "creator", "initializer", "manager",
    "operator", "governor"]

def rawAccountTypes : List String := ["AccountInfo", "UncheckedAccount", "SystemAccount"]

def checkConstraints : List String := ["address", "owner", "seeds", "constraint", "executable"]

def nextAccount : Pattern :=
  .lit "let" ++ .blanks1 ++ .opt (.lit "mut" ++ .blanks1) ++ .mark 1 .name ++ .blanks ++ .char '='
    ++ .blanks ++ .lit "next_account_info" ++ .blanks ++ .char '('

def signerCheck (name : String) : Pattern := .lit name ++ .dot ++ .lit "is_signer"

def signerCheckThrough (name : String) : Pattern :=
  .lit name ++ .dot
    ++ .opt (.lit "to_account_info" ++ .blanks ++ .char '(' ++ .blanks ++ .char ')' ++ .dot)
    ++ .lit "is_signer"

/-- The name, or its end after an underscore, is one of those that authorize. -/
def isAuthority (name : String) : Bool :=
  names.contains name || names.any fun n => ('_' :: n.toList).isSuffixOf name.toList

/-- The field authorizes, is a raw account and need not sign. -/
def isUnsignedAuthority (f : Field) : Bool :=
  isAuthority names f.name && !(Pattern.lit "Signer").occursIn f.type.toList
    && !f.hasAttribute "signer" && rawAccountTypes.contains f.typeName

def checkedIn (handlers : List (String × Function)) (name : String) : Bool :=
  handlers.any fun (_, h) =>
    (signerCheckThrough name).occursIn h.params.toList
      || (signerCheckThrough name).occursIn h.body.toList

def structSightings (index : Index) (s : Struct) : List Sighting :=
  let mutates := s.fields.any (·.hasAttribute "mut")
  let handlers := index.handlersFor s.name
  let called := (handlers.map (·.2.name)).mergeSort (· ≤ ·)
  (s.fields.filter fun f => isUnsignedAuthority names f && !checkedIn handlers f.name).map fun f =>
    { line := f.line
      message := "Account '" ++ f.name ++ "' in " ++ s.name ++ " is not required to sign"
      symbol := some (s.name ++ "." ++ f.name)
      severity := some (if mutates then .critical else .high)
      evidence := [.record [("field", .str f.name), ("type", .str f.type),
        ("handlers", .strings called), ("mutable_accounts", .bool mutates)]]
      snippet := ScanUnit.snippetOf m f.line none }

def lineSighting? (f : Function) (l : Line) : Option Sighting := do
  let name := (← nextAccount.search l.code.toList).groupText 1
  if !isAuthority names name then none
  if (signerCheck name).occursIn f.body.toList then none
  some (.onLine m f l ("'" ++ name ++ "' is read in " ++ f.qualifiedName ++ " without an is_signer check")
    [("account", .str name)])

def asksForNames : Bool :=
  m.accountsStructs.any (!·.fields.isEmpty)
    || m.functions.any fun f => (m.bodyLines f).any fun l => nextAccount.occursIn l.code.toList

/-- What the signer rule sees in a unit. The names are read only if they are asked for. -/
def signerSightings (setup : RuleSetup) (unit : ScanUnit) (index : Index) :
    Except ItemsError (List Sighting) := do
  let m := unit.model
  let more ← if asksForNames m then optionList setup.options "authority_names" else pure []
  let names := authorityNames ++ more
  return m.accountsStructs.flatMap (structSightings names m index)
    ++ m.functions.flatMap fun f => (m.bodyLines f).filterMap (lineSighting? names m f)

def missingSigner : Detector where
  implementation := "MissingSignerCheckRule"
  sightings := signerSightings
  info :=
    { id := "SOL-002"
      title := "Missing signer check"
      defaultSeverity := .high
      description := "An account that authorizes the instruction is not required to sign the "
        ++ "transaction, so anyone can pass an arbitrary public key in its place."
      remediation := "Declare the account as Signer<'info>, add #[account(signer)], or verify "
        ++ "account.is_signer before acting on it." }

/-- The field is a raw account without a constraint and without a note that it is checked. -/
def isUnchecked (f : Field) : Bool :=
  ["AccountInfo", "UncheckedAccount"].contains f.typeName
    && !f.docs.any (fun d => "CHECK".toList.isPrefixOf (upper d).toList)
    && !checkConstraints.any f.hasAttribute

def uncheckedSightings : List Sighting :=
  m.accountsStructs.flatMap fun s => (s.fields.filter isUnchecked).map fun f =>
    { line := f.line
      message := "'" ++ f.name ++ "' in " ++ s.name ++ " is an unchecked " ++ f.typeName
      symbol := some (s.name ++ "." ++ f.name)
      evidence := [.record [("field", .str f.name), ("type", .str f.type)]]
      snippet := ScanUnit.snippetOf m f.line none }

def uncheckedAccount : Detector where
  implementation := "UncheckedAccountRule"
  sightings := fun _ unit _ => .ok (uncheckedSightings unit.model)
  info :=
    { id := "SOL-003"
      title := "Unchecked account"
      defaultSeverity := .medium
      description := "AccountInfo and UncheckedAccount perform no ownership or type validation. "
        ++ "Without explicit constraints an attacker can substitute any account."
      remediation := "Use a typed Account<'info, T>, add address/owner/seeds constraints, or "
        ++ "document the manual validation with a '/// CHECK:' comment." }

def deserialize : Pattern :=
  .wordEdge ++ .oneOf (["try_from_slice", "unpack_unchecked", "unpack", "try_deserialize_unchecked",
    "try_deserialize", "deserialize", "load_mut", "load"].map .lit) ++ .blanks ++ .char '('

def dataAccess : Pattern :=
  .wordEdge ++ .mark 1 .name ++ .dot
    ++ .oneOf [.lit "data" ++ .dot ++ .lit "borrow" ++ .opt (.lit "_mut") ++ .emptyCall,
      .lit "try_borrow_data" ++ .emptyCall, .lit "try_borrow_mut_data" ++ .emptyCall, .lit "data"]
    ++ .wordEdge

def ownerCheck : Pattern :=
  .oneOf [.lit ".owner" ++ .wordEdge, .lit "check_account_owner", .lit "assert_owned_by",
    .lit "check_program_account", .lit "owner" ++ .blanks ++ .anyOf "!=" ++ .char '=']

def ownerSightings : List Sighting :=
  (m.functions.filter fun f => !ownerCheck.occursIn f.body.toList).flatMap fun f =>
    (m.bodyLines f).filterMap fun l => do
      if !deserialize.occursIn l.code.toList then none
      let account := (← dataAccess.search l.code.toList).groupText 1
      some (.onLine m f l ("Data of '" ++ account ++ "' deserialized in " ++ f.qualifiedName
        ++ " without an owner check") [("account", .str account)])

def missingOwner : Detector where
  implementation := "MissingOwnerCheckRule"
  sightings := fun _ unit _ => .ok (ownerSightings unit.model)
  info :=
    { id := "SOL-004"
      title := "Missing owner check"
      defaultSeverity := .high
      description := "Account data is deserialized without checking account.owner. A forged "
        ++ "account owned by another program can carry attacker-chosen state."
      remediation := "Compare account.owner with the expected program id before reading its "
        ++ "data." }

def createAddress : Pattern :=
  .wordEdge ++ .lit "create_program_address" ++ .blanks ++ .char '('

def bumpSightings : List Sighting :=
  let fixed := Pattern.lit "find_program_address"
  (m.functions.filter fun f => !fixed.occursIn f.body.toList).flatMap fun f =>
    ((m.bodyLines f).filter fun l => createAddress.occursIn l.code.toList).map fun l =>
      .onLine m f l ("PDA derived with create_program_address in " ++ f.qualifiedName)

def nonCanonicalBump : Detector where
  implementation := "NonCanonicalBumpRule"
  sightings := fun _ unit _ => .ok (bumpSightings unit.model)
  info :=
    { id := "SOL-009"
      title := "Non-canonical PDA bump"
      defaultSeverity := .medium
      description := "create_program_address accepts any bump. Unless the canonical bump from "
        ++ "find_program_address is enforced, several valid PDAs exist for the same seeds."
      remediation := "Derive the address with find_program_address or store and verify the "
        ++ "canonical bump." }

end ContractAudit.Accounts
