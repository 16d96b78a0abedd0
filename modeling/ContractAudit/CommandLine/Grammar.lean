import ContractAudit.Text.Quoted

/-! # Reading a command line -/

namespace ContractAudit.CommandLine

inductive Halt where
  | help
  | version
  | ambiguous (word : String) (names : List String)
  | missingValue (option : String)
  | unusedValue (option value : String)
  | badValue (name value : String)
  | required (names : List String)
  | unrecognized (words : List String)
deriving DecidableEq, Repr

def Halt.status : Halt → Nat
  | help | version => 0
  | _ => 2

def Halt.message : Halt → String
  | help | version => ""
  | ambiguous word names => "ambiguous option: " ++ word ++ " could match " ++ ", ".intercalate names
  | missingValue option => "argument " ++ option ++ ": expected one argument"
  | unusedValue option value =>
    "argument " ++ option ++ ": ignored explicit argument " ++ Text.quoted value
  | badValue name value => "argument " ++ name ++ ": invalid value: " ++ Text.quoted value
  | required names => "the following arguments are required: " ++ ", ".intercalate names
  | unrecognized words => "unrecognized arguments: " ++ " ".intercalate words

inductive Effect (α : Type) where
  | halt (h : Halt)
  | flag (set : α → α)
  /-- It takes a value, which can be refused. -/
  | value (set : String → α → Option α)

structure Opt (α : Type) where
  names : List String
  effect : Effect α

inductive Positional (α : Type) where
  | one (name : String) (set : String → α → Option α)
  | atMostOne (set : Option String → α → α)
  /-- One, and everything after it; some of the words may be handed back. -/
  | rest (name : String) (set : List String → α → Except Halt (α × List String))

structure Grammar (α : Type) where
  options : List (Opt α)
  positionals : List (Positional α)

inductive Attached where
  | nothing
  | value (text : String)
  | letters (text : List Char)
deriving DecidableEq, Repr

inductive Word (α : Type) where
  | argument (text : String)
  | separator
  | option (text : String) (o : Opt α) (attached : Attached)
  /-- It looks like an option, but there is no such option. -/
  | unknown (text : String)

namespace Word

variable {α : Type}

def text : Word α → String
  | argument t | option t _ _ | unknown t => t
  | separator => "--"

def isOption : Word α → Bool
  | option _ _ _ | unknown _ => true
  | argument _ | separator => false

def isSeparator : Word α → Bool
  | separator => true
  | _ => false

end Word

namespace Opt

variable {α : Type}

def takesValue (o : Opt α) : Bool :=
  match o.effect with
  | .value _ => true
  | .halt _ | .flag _ => false

def label (o : Opt α) : String := o.names.headD ""

end Opt

namespace Grammar

variable {α : Type} (g : Grammar α)

def named : List (String × Opt α) :=
  g.options.flatMap fun o => o.names.map fun n => (n, o)

def find? (name : String) : Option (Opt α) := g.named.lookup name

def splitValue (word : List Char) : List Char × Option (List Char) :=
  let name := word.takeWhile (· != '=')
  match word.dropWhile (· != '=') with
  | [] => (name, none)
  | _ :: v => (name, some v)

/-- The options that a word can be short for, with what stands after their names: a long name can be
    cut off, and a letter can be followed by its value or by more letters. -/
def candidates : List Char → List (String × Opt α × Attached)
  | '-' :: '-' :: name =>
    let (start, value) := splitValue ('-' :: '-' :: name)
    (g.named.filter fun e => start.isPrefixOf e.1.toList).map fun (n, o) =>
      (n, o, match value with
        | some v => .value (String.ofList v)
        | none => .nothing)
  | '-' :: c :: more =>
    g.named.filterMap fun (n, o) =>
      if n.toList == ['-', c] then some (n, o, .letters more)
      else if ('-' :: c :: more).isPrefixOf n.toList then some (n, o, .nothing)
      else none
  | _ => []

def dropLineEnd (word : List Char) : List Char :=
  if word.getLast? == some '\n' then word.dropLast else word

/-- The word is a negative number, perhaps at the end of a line. -/
def isNegativeNumber (word : List Char) : Bool :=
  match dropLineEnd word with
  | '-' :: cs =>
    let whole := cs.takeWhile Text.isDecimalDigit
    match cs.dropWhile Text.isDecimalDigit with
    | [] => !whole.isEmpty
    | '.' :: places => !places.isEmpty && places.all Text.isDecimalDigit
    | _ => false
  | _ => false

/-- How a word that begins with `-` is taken if it is not the name of an option. -/
def takeOther (word : String) : Except Halt (Word α) :=
  match g.candidates word.toList with
  | [(_, o, attached)] => .ok (.option word o attached)
  | [] =>
    if isNegativeNumber word.toList || word.toList.contains ' ' then .ok (.argument word)
    else .ok (.unknown word)
  | several => .error (.ambiguous word (several.map (·.1)))

def take (word : String) : Except Halt (Word α) :=
  match word.toList with
  | '-' :: c :: more =>
    match g.find? word with
    | some o => .ok (.option word o .nothing)
    | none => match splitValue ('-' :: c :: more) with
      | (name, some v) => match g.find? (String.ofList name) with
        | some o => .ok (.option word o (.value (String.ofList v)))
        | none => g.takeOther word
      | (_, none) => g.takeOther word
  | _ => .ok (.argument word)

def takeAll (g : Grammar α) : List String → Except Halt (List (Word α))
  | [] => .ok []
  | "--" :: words => .ok (.separator :: words.map .argument)
  | word :: words => do return (← g.take word) :: (← g.takeAll words)

structure Uses (α : Type) where
  uses : List (Opt α × Option String)
  left : List String := []
  /-- The word after it is the value of an option. -/
  takesNext : Bool := false

def useAlone (o : Opt α) (next : Option (Word α)) : Except Halt (Uses α) :=
  if o.takesValue then
    match next with
    | some (.argument v) => .ok { uses := [(o, some v)], takesNext := true }
    | _ => .error (.missingValue o.label)
  else .ok { uses := [(o, none)] }

def useValue (o : Opt α) (v : String) : Except Halt (Uses α) :=
  if o.takesValue then .ok { uses := [(o, some v)] } else .error (.unusedValue o.label v)

def Uses.after (o : Opt α) (u : Uses α) : Uses α := { u with uses := (o, none) :: u.uses }

/-- The option with letters after it in its word. They are its value if it takes one; else each is
    an option of its own, as long as there are such options. -/
def useLetters (g : Grammar α) (next : Option (Word α)) : Opt α → List Char → Except Halt (Uses α)
  | o, [] => useAlone o next
  | o, c :: cs =>
    if o.takesValue then .ok { uses := [(o, some (String.ofList (c :: cs)))] }
    else if c == '-' then .error (.unusedValue o.label (String.ofList (c :: cs)))
    else match g.find? (String.ofList ['-', c]) with
      | none => .ok { uses := [(o, none)], left := [String.ofList ('-' :: c :: cs)] }
      | some p => match cs with
        | '=' :: v => do return (← useValue p (String.ofList v)).after o
        | cs => do return (← useLetters g next p cs).after o

def uses (o : Opt α) (next : Option (Word α)) : Attached → Except Halt (Uses α)
  | .nothing => useAlone o next
  | .value v => useValue o v
  | .letters cs => g.useLetters next o cs

structure Reader (α : Type) where
  value : α
  expected : List (Positional α)
  left : List String := []

def apply (a : α) : Opt α × Option String → Except Halt α
  | (o, v) => match o.effect with
    | .halt h => .error h
    | .flag set => .ok (set a)
    | .value set =>
      let v := v.getD ""
      match set v a with
      | some a => .ok a
      | none => .error (.badValue o.label v)

def readOption (r : Reader α) (w : Word α) (next : Option (Word α)) :
    Except Halt (Reader α × Bool) :=
  match w with
  | .option _ o attached => do
    let u ← g.uses o next attached
    let value ← u.uses.foldlM apply r.value
    return ({ r with value, left := r.left ++ u.left }, u.takesNext)
  | w => .ok ({ r with left := r.left ++ [w.text] }, false)

/-- The words for what is expected at one place, if they are there: an argument can have the
    separator before or after it. -/
def group (p : Positional α) (ws : List (Word α)) : Option (List (Word α)) :=
  let marks := ws.takeWhile Word.isSeparator
  match p, ws.dropWhile Word.isSeparator with
  | .rest _ _, .argument _ :: _ => some ws
  | .one _ _, .argument t :: more | .atMostOne _, .argument t :: more =>
    some (marks ++ .argument t :: more.takeWhile Word.isSeparator)
  | .atMostOne _, _ => some marks
  | _, _ => none

def setPositional (p : Positional α) (words : List String) (r : Reader α) :
    Except Halt (Reader α) :=
  let given := (words.erase "--").head?
  match p with
  | .one name set =>
    let v := given.getD ""
    match set v r.value with
    | some value => .ok { r with value }
    | none => .error (.badValue name v)
  | .atMostOne set => .ok { r with value := set given r.value }
  | .rest _ set => do
    let (value, left) ← set words r.value
    return { r with value, left := r.left ++ left }

def readExpected : List (Positional α) → Reader α → List (Word α) → Except Halt (Reader α × Nat)
  | [], r, _ => .ok ({ r with expected := [] }, 0)
  | p :: ps, r, ws => match group p ws with
    | none => .ok ({ r with expected := p :: ps }, 0)
    | some taken => do
      let r ← setPositional p (taken.map Word.text) r
      let (r, n) ← readExpected ps r (ws.drop taken.length)
      return (r, taken.length + n)

def Reader.skip (r : Reader α) (ws : List (Word α)) : Reader α :=
  { r with left := r.left ++ ws.map Word.text }

/-- The reader after the words of a command line. Expected arguments are read where the words between
    two options begin; arguments beyond them are skipped. -/
def readWords (g : Grammar α) (r : Reader α) (ws : List (Word α)) : Except Halt (Reader α) :=
  match ws with
  | [] => do return (← readExpected r.expected r []).1
  | w :: rest =>
    if w.isOption then do
      let (r, takesNext) ← g.readOption r w rest.head?
      if takesNext then g.readWords r rest.tail else g.readWords r rest
    else do
      let (r, n) ← readExpected r.expected r (w :: rest)
      if rest.any Word.isOption then
        if 0 < n then
          g.readWords r (rest.drop (n - 1))
        else
          let r := r.skip (w :: rest.takeWhile (!·.isOption))
          g.readWords r (rest.dropWhile (!·.isOption))
      else
        return r.skip ((w :: rest).drop n)
termination_by ws.length
decreasing_by
  all_goals simp only [List.length_tail, List.length_drop, List.length_cons]
  · omega
  · omega
  · omega
  · exact Nat.lt_succ_of_le (List.dropWhile_sublist _).length_le

def requiredNames (ps : List (Positional α)) : List String :=
  ps.filterMap fun
    | .one name _ | .rest name _ => some name
    | .atMostOne _ => none

def read (start : α) (words : List String) : Except Halt (α × List String) := do
  let r ← g.readWords { value := start, expected := g.positionals } (← g.takeAll words)
  match requiredNames r.expected with
  | [] => return (r.value, r.left)
  | names => .error (.required names)

end Grammar

end ContractAudit.CommandLine
