import ContractAudit.Text.Word

/-! # Letter case -/

namespace ContractAudit.Text
variable (c : Char)

def ignorableRanges : List (Nat × Nat) := rangesFrom 0
  [39,0,7,0,12,0,36,0,2,0,72,0,5,0,2,0,5,0,3,1,504,191,5,1,5,0,10,1,2,0,252,6,208,0,6,0,50,44,2,0,2,1,2,
   1,2,0,45,0,12,5,11,10,2,0,36,0,11,20,17,0,102,7,2,9,2,3,34,0,2,0,31,26,92,10,59,10,5,0,3,0,25,23,44,2,
   45,0,8,1,7,7,42,57,56,0,2,0,5,7,5,0,4,6,11,1,14,0,16,0,59,0,5,3,9,0,21,1,27,0,3,1,58,0,5,1,5,1,3,2,4,
   0,31,1,4,0,12,1,58,0,5,4,2,1,5,0,21,1,23,5,2,0,59,0,3,0,2,3,9,0,8,1,12,1,31,0,62,0,13,0,51,0,4,0,56,0,
   2,2,6,2,2,3,8,1,12,1,30,0,59,0,3,0,7,0,6,1,21,1,29,1,58,1,5,3,9,0,21,1,30,0,73,0,8,2,2,0,91,0,3,6,12,
   8,99,0,3,8,10,0,2,5,75,1,28,0,2,0,2,0,56,13,2,4,2,1,6,10,2,35,10,0,103,3,2,5,2,1,3,1,26,1,5,2,17,3,14,
   0,3,1,7,0,16,0,95,0,609,2,947,2,30,1,31,1,31,1,65,1,2,6,9,0,3,10,4,0,6,0,46,4,52,0,66,1,35,0,119,2,5,
   1,10,0,7,2,220,1,3,0,59,0,2,6,2,0,2,0,3,7,7,9,3,0,40,0,9,30,50,3,49,0,2,4,2,0,6,0,41,8,13,1,33,3,3,1,
   2,2,57,0,2,1,4,0,2,2,59,7,3,1,65,5,83,2,2,12,2,6,5,0,7,0,4,1,51,62,14,0,35,100,446,0,2,2,12,2,14,2,14,
   2,14,1,13,4,9,1,11,0,3,0,3,4,50,4,2,9,2,0,14,0,17,12,52,32,2956,1,114,2,126,0,16,0,97,31,48,0,470,0,
   37,3,4,4,6,0,94,5,94,2,28439,0,1251,5,271,0,99,3,2,9,2,0,29,3,81,1,15,33,79,0,24,2,104,2,4,1,9,0,4,0,
   5,0,26,1,6,0,152,1,27,17,14,0,39,7,26,10,47,2,49,0,3,3,3,1,18,0,22,1,67,5,3,1,3,1,13,0,9,0,36,0,12,0,
   52,0,2,2,3,1,6,1,2,0,28,0,15,1,6,1,2,0,101,4,10,2,122,0,3,0,5,0,20273,0,148,16,574,15,4,0,13,15,35,0,
   3,0,170,0,8,0,7,0,12,0,36,0,2,0,48,0,46,1,68,0,22,2,514,0,227,0,150,4,1030,5,2,41,2,8,583,2,2,1,6,3,
   41,2,5,0,166,1,574,3,388,1,154,10,50,3,124,0,55,14,42,0,3,1,11,2,50,3,3,1,3,0,5,0,11,0,51,2,37,4,2,7,
   63,0,13,1,53,8,11,3,3,0,96,2,3,0,2,1,7,0,161,0,4,7,22,1,58,1,4,0,38,6,4,4,196,7,3,2,2,0,24,0,85,5,2,0,
   5,1,2,1,239,3,7,1,2,1,28,1,86,7,3,0,2,1,107,0,2,0,3,5,2,0,102,2,3,3,2,4,260,8,2,1,257,1,2,0,5,0,145,3,
   3,1,5,0,33,9,41,5,3,3,9,0,10,5,3,2,47,12,2,1,407,6,2,5,2,0,83,21,3,6,2,1,2,1,123,5,4,0,2,1,2,6,2,0,73,
   1,4,0,2,0,348,1,5436,8,14008,4,60,6,10,3,1036,0,64,16,65,1,2,1,16396,3,2,6,2,1,3231,1,2,3,4701,45,3,
   22,545,2,10,15,3,6,31,3,149,2,1980,54,5,49,9,0,15,0,23,4,2,14,1361,6,2,16,3,6,2,1,2,4,262,13,369,0,62,
   3,1505,6,110,7,2736,4,789506,0,31,95,129,239]

def casedRanges : List (Nat × Nat) := rangesFrom 0
  [65,25,7,25,48,0,11,0,5,0,6,22,2,30,2,194,2,3,5,207,2,26,193,3,3,1,4,2,2,0,7,0,2,2,2,0,2,19,2,82,2,138,
   9,165,2,37,10,40,2840,37,2,0,6,0,3,42,3,2,673,85,3,5,2179,8,8,42,3,2,65,43,64,12,2,33,102,277,3,5,3,
   37,3,5,3,7,2,0,2,0,2,0,2,30,3,52,2,6,2,0,4,2,2,6,4,3,3,5,5,12,6,2,2,6,262,0,5,0,3,9,2,0,4,4,7,0,2,0,2,
   0,2,3,2,5,5,0,3,3,6,4,5,0,18,31,4,1,818,51,1815,123,3,102,7,3,4,1,13,37,2,0,6,0,30995,45,19,27,135,77,
   2,22,4,3,2,58,6,1,2,0,2,4,28,1,4,0,822,42,6,8,8,79,20289,6,13,4,1034,25,7,25,1190,79,97,35,5,35,117,
   10,2,14,2,6,2,1,2,10,2,14,2,6,2,1,1732,50,14,50,2990,63,21857,63,25985,84,2,70,2,1,3,0,3,1,3,3,2,11,2,
   0,2,6,2,64,2,3,3,7,2,6,2,27,2,3,2,4,2,0,4,6,2,339,3,24,2,24,2,30,2,24,2,30,2,24,2,30,2,24,2,30,2,24,2,
   7,1845,9,2,19,2530,67,2029,25,7,25,7,25]

def isCaseIgnorable : Bool := inRanges ignorableRanges c

def isCased : Bool := inRanges casedRanges c

/-- Code points `first`, `first + step`, … up to `last`, each with its partner at distance `shift`. -/
structure CaseRun where
  first : Nat
  last : Nat
  step : Nat
  shift : Int

def CaseRun.partner? (r : CaseRun) (n : Nat) : Option Nat :=
  if r.first ≤ n ∧ n ≤ r.last ∧ (n - r.first) % r.step = 0 then some (Int.toNat (n + r.shift))
  else none

def CaseRun.inverse (r : CaseRun) : CaseRun :=
  ⟨(r.first + r.shift).toNat, (r.last + r.shift).toNat, r.step, -r.shift⟩

/-- The runs of which each is given by how far it begins behind the last code point before it, by how far
    it goes on, and by its shift. -/
def caseRunsFrom (last : Nat) : List Int → List CaseRun
  | gap :: more :: shift :: rest =>
    let first := last + gap.toNat
    ⟨first, first + more.toNat, 1, shift⟩ :: caseRunsFrom (first + more.toNat) rest
  | _ => []

/-- The small letters, each with the capital whose small letter it is. In the first ranges the capital of
    every second letter stands right before it. -/
def smallRuns : List CaseRun :=
  ((rangesFrom 0
  [257,46,4,4,3,14,3,44,3,4,5,2,3,0,4,0,6,0,7,0,8,4,3,0,5,0,3,0,4,2,3,0,4,0,17,14,3,16,6,0,4,38,4,16,9,
   0,6,0,5,8,290,2,4,0,98,22,9,0,3,0,102,32,10,52,3,12,3,94,6354,148,12,94,645,0,2781,0,7,4,7,0,3,0,11,
   98,9,2,5,0,31054,44,20,26,136,12,4,60,11,2,3,8,5,0,5,2,4,18,12,14,5,2,7,0,6,2,29,0]).map fun r => ⟨r.1, r.2, 2, -1⟩)
  ++ caseRunsFrom 0
  [224,22,-32,2,6,-32,1,0,121,129,0,195,21,0,97,5,0,163,4,0,130,33,0,56,7,0,-2,3,0,-2,3,0,-2,17,0,-79,
   22,0,-2,76,1,10815,16,0,10783,1,0,10780,1,0,10782,1,0,-210,1,0,-206,2,1,-205,2,0,-202,2,0,-203,1,0,
   42319,4,0,-205,1,0,42315,2,0,-207,2,0,42280,1,0,42308,2,0,-209,1,0,-211,1,0,42308,1,0,10743,1,0,
   42305,3,0,-211,2,0,10749,1,0,-213,3,0,-214,8,0,10727,3,0,-218,2,0,42307,1,0,-218,4,0,42282,1,0,-218,
   1,0,-69,1,1,-217,1,0,-71,6,0,-219,11,0,42261,1,0,42258,221,2,130,47,0,-38,1,2,-37,2,16,-32,2,8,-32,1,
   0,-64,1,1,-63,9,0,-8,27,0,7,1,0,-116,61,31,-32,1,15,-80,112,0,-15,146,37,-48,2890,42,3008,3,2,3008,
   761,5,-8,2428,0,35332,4,0,3814,17,0,35384,370,7,8,9,5,8,11,7,8,9,7,8,9,5,8,12,0,8,2,0,8,2,0,8,2,0,8,
   9,7,8,9,1,74,1,3,86,1,1,100,1,1,128,1,1,112,1,1,126,51,1,8,31,1,8,15,1,8,4,0,7,361,0,-28,34,15,-16,
   849,25,-26,1863,47,-48,6,0,-10795,1,0,-10792,154,37,-7264,2,0,-7264,6,0,-7264,31335,0,48,959,0,-928,
   29,79,-38864,21378,25,-32,1230,39,-40,137,35,-40,156,10,-39,2,14,-39,2,6,-39,2,1,-39,1796,50,-64,
   3022,31,-32,21889,31,-32,31395,33,-34]

def upperRuns : List CaseRun := smallRuns ++ caseRunsFrom 0
  [181,0,743,124,0,-232,78,0,-300,70,0,-1,3,0,-1,3,0,-1,39,0,-1,339,0,84,125,0,-31,14,0,-62,1,0,-57,4,0,
   -47,1,0,-54,26,0,-86,1,0,-80,4,0,-96,6283,0,-6254,1,0,-6253,1,0,-6244,1,1,-6242,1,0,-6243,1,0,-6236,
   1,0,-6181,1,0,35266,531,0,-59,291,0,-7205]

def lowerRuns : List CaseRun := smallRuns.map CaseRun.inverse ++ caseRunsFrom 0
  [453,0,1,3,0,1,3,0,1,39,0,1,514,0,-60,6826,0,-7615,234,7,-8,9,7,-8,9,7,-8,13,0,-9,16,0,-9,48,0,-9,298,
   0,-7517,4,0,-8383,1,0,-8262]

/-- The letters that take several capitals. Those with an iota below stand in three rows of small and title
    letters. -/
def upperSequences : List (Nat × List Nat) :=
  (List.range 48).map (fun n => (8064 + n, [[7944, 7976, 8040].getD (n / 16) 0 + n % 8, 921])) ++
  [(223,[83,83]), (329,[700,78]), (496,[74,780]), (912,[921,776,769]), (944,[933,776,769]),
   (1415,[1333,1362]), (7830,[72,817]), (7831,[84,776]), (7832,[87,778]), (7833,[89,778]),
   (7834,[65,702]), (8016,[933,787]), (8018,[933,787,768]), (8020,[933,787,769]), (8022,[933,787,834]),
   (8114,[8122,921]), (8115,[913,921]), (8116,[902,921]), (8118,[913,834]), (8119,[913,834,921]),
   (8124,[913,921]), (8130,[8138,921]), (8131,[919,921]), (8132,[905,921]), (8134,[919,834]),
   (8135,[919,834,921]), (8140,[919,921]), (8146,[921,776,768]), (8147,[921,776,769]),
   (8150,[921,834]), (8151,[921,776,834]), (8162,[933,776,768]), (8163,[933,776,769]),
   (8164,[929,787]), (8166,[933,834]), (8167,[933,776,834]), (8178,[8186,921]), (8179,[937,921]),
   (8180,[911,921]), (8182,[937,834]), (8183,[937,834,921]), (8188,[937,921]), (64256,[70,70]),
   (64257,[70,73]), (64258,[70,76]), (64259,[70,70,73]), (64260,[70,70,76]), (64261,[83,84]),
   (64262,[83,84]), (64275,[1348,1350]), (64276,[1348,1333]), (64277,[1348,1339]), (64278,[1358,1350]),
   (64279,[1348,1341])]

def upperChar : List Char :=
  if c.toNat < 128 then [c.toUpper]
  else match upperSequences.find? fun e => e.1 == c.toNat with
    | some e => e.2.map Char.ofNat
    | none => match upperRuns.findSome? (·.partner? c.toNat) with
      | some n => [Char.ofNat n]
      | none => [c]

def smallLetter : Char :=
  if c.toNat < 128 then c.toLower
  else if c.toNat == 0x130 then 'i'
  else match lowerRuns.findSome? (·.partner? c.toNat) with
    | some n => Char.ofNat n
    | none => c

theorem smallLetter_cases : c.toNat < 128 ∧ smallLetter c = c.toLower ∨
      128 ≤ c.toNat ∧ (c.toNat = 0x130 ∧ smallLetter c = 'i' ∨ smallLetter c = c ∨
        ∃ r ∈ lowerRuns, r.first ≤ c.toNat ∧ c.toNat ≤ r.last ∧
          smallLetter c = Char.ofNat (c.toNat + r.shift).toNat) := by
  unfold smallLetter
  split
  · next h => exact .inl ⟨h, rfl⟩
  · next h =>
    refine .inr ⟨Nat.not_lt.mp h, ?_⟩
    split
    · next hdot => exact .inl ⟨eq_of_beq hdot, rfl⟩
    · split
      · next n hpartner =>
        obtain ⟨r, hr, hn⟩ := List.exists_of_findSome?_eq_some hpartner
        rw [CaseRun.partner?] at hn
        split at hn
        · next hin =>
          cases hn
          exact .inr (.inr ⟨r, hr, hin.1, hin.2.1, rfl⟩)
        · cases hn
      · exact .inr (.inl rfl)

theorem toNat_ofNat_cases (n : Nat) : (Char.ofNat n).toNat = n ∨ Char.ofNat n = '\x00' := by
  by_cases h : n.isValidChar
  · exact .inl (by rw [Char.ofNat, dif_pos h]; rfl)
  · exact .inr (dif_neg h)

/-- The lower case of a letter. The capital dotted I keeps its dot as a mark of its own. -/
def lowerChar : List Char :=
  if c.toNat == 0x130 then ['i', Char.ofNat 0x307] else [smallLetter c]

def upper (s : String) : String := String.ofList (s.toList.flatMap upperChar)

def meetsCased : List Char → Bool
  | [] => false
  | c :: r => if isCaseIgnorable c then meetsCased r else isCased c

/-- A capital sigma in lower case: at the end of a word, after another letter, it is a final one. -/
def lowerSigma (afterCased : Bool) (rest : List Char) : Char :=
  if afterCased && !meetsCased rest then 'ς' else 'σ'

/-- Characters in lower case; `afterCased` says whether the last character before them that is not
    passed over has a case. -/
def lowerFrom : (afterCased : Bool) → List Char → List Char
  | _, [] => []
  | afterCased, c :: r =>
    (if c == 'Σ' then [lowerSigma afterCased r] else lowerChar c)
      ++ lowerFrom (if isCaseIgnorable c then afterCased else isCased c) r

def lower (s : String) : String := String.ofList (lowerFrom false s.toList)

def capitalize (s : String) : String :=
  match s.toList with
  | [] => ""
  | c :: r =>
    String.ofList (upperChar c ++ lowerFrom (!isCaseIgnorable c && isCased c) r)

/-- The small letters that share a capital. -/
def sharedCapitals : List (List Nat) :=
  [[105,305], [115,383], [181,956], [837,953,8126], [912,8147], [944,8163], [946,976], [949,1013],
   [952,977], [954,1008], [960,982], [961,1009], [962,963], [966,981], [1074,7296], [1076,7297],
   [1086,7298], [1089,7299], [1090,7300,7301], [1098,7302], [1123,7303], [7304,42571], [7777,7835],
   [64261,64262]]

def sameLetter (p c : Char) : Bool :=
  let a := smallLetter p
  let b := smallLetter c
  a == b || sharedCapitals.any fun l => l.contains a.toNat && l.contains b.toNat

end ContractAudit.Text
