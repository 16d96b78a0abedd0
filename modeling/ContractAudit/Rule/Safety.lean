import ContractAudit.Rule.Basic

/-! # Memory safety and panics -/

namespace ContractAudit.Safety
open Source Text

def unsafeStart : Pattern :=
  .wordEdge ++ .lit "unsafe" ++ .blanks
    ++ .oneOf [.char '{', .lit "fn" ++ .wordEdge, .lit "impl" ++ .wordEdge, .lit "trait" ++ .wordEdge]

def unsafeSightings (m : Model) : List Sighting :=
  m.lines.filterMap fun l => do
    if !unsafeStart.occursIn l.code.toList then none
    let f := m.functionAt? l.number
    if f.any m.isTestCode then none
    some {
      line := l.number
      message := "unsafe code" ++ (f.elim "" fun f => " in " ++ f.qualifiedName)
      symbol := f.map (·.qualifiedName)
      evidence := [.record [("snippet", .str l.trimmed)]]
      snippet := ScanUnit.snippetOf m l.number none }

def unsafeCode : Detector where
  implementation := "UnsafeCodeRule"
  sightings := fun _ unit _ => .ok (unsafeSightings unit.model)
  info :=
    { id := "SOL-007"
      title := "Unsafe code"
      defaultSeverity := .medium
      description := "unsafe blocks bypass Rust's memory-safety guarantees inside the on-chain "
        ++ "program."
      remediation := "Replace unsafe code with safe equivalents (bytemuck, zero-copy accounts) or "
        ++ "document its invariants." }

def panicCall : Pattern :=
  .oneOf
    [.char '.' ++ .blanks ++ .mark 1 (.oneOf [.lit "unwrap", .lit "expect"]) ++ .blanks ++ .char '(',
      .wordEdge ++ .mark 2 (.oneOf [.lit "panic", .lit "unreachable", .lit "todo",
        .lit "unimplemented"]) ++ .char '!' ++ .blanks ++ .anyOf "([\x7b"]

/-- The name of the call that a line makes; a method is named as it is, any other with its mark. -/
def callName (m : Match) : String :=
  match m.capture? 1 with
  | some c => String.ofList c.text
  | none => m.groupText 2 ++ "!"

/-- What the rule for panics sees in a unit. A line counts for its innermost function only. -/
def panicSightings (m : Model) : List Sighting :=
  m.handlers.flatMap fun f => (m.bodyLines f).filterMap fun l => do
    let call := callName (← panicCall.search l.code.toList)
    if (m.functionAt? l.number).map (·.offset) != some f.offset then none
    some (.onLine m f l ("'" ++ call ++ "' in instruction handler " ++ f.qualifiedName)
      [("call", .str call)])

def panicInHandler : Detector where
  implementation := "PanicInHandlerRule"
  sightings := fun _ unit _ => .ok (panicSightings unit.model)
  info :=
    { id := "SOL-008"
      title := "Panic in instruction handler"
      defaultSeverity := .low
      description := "A panic aborts the transaction with an opaque error instead of a program "
        ++ "error code, which hides the failure cause from clients."
      remediation := "Propagate errors with ? and a custom error type instead of "
        ++ "unwrap/expect/panic!." }

end ContractAudit.Safety
