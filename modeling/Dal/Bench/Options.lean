/-
The command line of the benchmarks: `parse_cli_args` of `src/Sherman/src/mb_utils.cpp`.

The argument vector is the pairs of an option and its argument that `getopt` returns one
after the other; every option of its option string takes one.  A C string is a list of
characters.  The option `z` goes through `atof`, of which nothing is used but that its
result is stored, so it is a parameter here.

The cases `c`, `y`, `x` and `q` of the switch have no `break`: each runs into those
below it.  `c` sets four variables, `y` three and `x` two, all to the same number.
-/
import Dal.Lib.LastWrite
import Mathlib.Algebra.Ring.Int.Defs
import Mathlib.Algebra.Ring.Nat
import Mathlib.Data.List.Nodup

namespace Dal.CommandLine

/-- A C string. -/
abbrev Arg := List Char

/-- The option string of `getopt`. -/
inductive Letter
  | d | t | l | i | s | m | r | f | g | n | z | w | p | c | y | h | x | q
  deriving DecidableEq, Repr

/-- The output variables. -/
@[ext]
structure Options (Double : Type) where
  threadNR : Int
  nodeNR : Int
  mnNR : Int
  lockNR : Int
  runNR : Int
  nodeID : Int
  duration : Int
  mode : Int
  zipfian : Double
  kReadRatio : Int
  pinning : Int
  chipSize : Int
  dsmSize : Nat
  maxHandover : Int
  colocate : Int
  resFileTp : Arg
  resFileLat : Arg
  resFileLock : Arg
  deriving DecidableEq

/-! ### Numbers -/

/-- `isspace` in the C locale. -/
def isSpace (ch : Char) : Bool := ch = ' ' || (9 ≤ ch.toNat && ch.toNat ≤ 13)

def digits (s : Arg) : Nat :=
  (s.takeWhile Char.isDigit).foldl (fun n ch => 10 * n + (ch.toNat - '0'.toNat)) 0

/-- `strtol(s, NULL, 10)`: blanks, a sign and digits, cut to the range of `long`. -/
def strtol (s : Arg) : Int :=
  match s.dropWhile isSpace with
  | '-' :: rest => max (-(digits rest : Int)) (-2 ^ 63)
  | '+' :: rest => min (digits rest) (2 ^ 63 - 1)
  | rest => min (digits rest) (2 ^ 63 - 1)

/-- `atoi(s)`, which is `(int) strtol(s, NULL, 10)`. -/
def atoi (s : Arg) : Int := (strtol s).bmod (2 ^ 32)

/-- The conversion of an `int` to `uint64_t`. -/
def toUint64 (n : Int) : Nat := (n % 2 ^ 64).toNat

/-! ### The switch -/

section Parse

variable {Double : Type} (atof : Arg → Double)

/-- `case 'q'`, down to the `break` of `default`. -/
def caseQ (o : Options Double) (optarg : Arg) : Options Double :=
  { o with colocate := atoi optarg }

/-- `case 'x'` and what it falls into. -/
def caseX (o : Options Double) (optarg : Arg) : Options Double :=
  caseQ { o with maxHandover := atoi optarg } optarg

def caseY (o : Options Double) (optarg : Arg) : Options Double :=
  caseX { o with dsmSize := toUint64 (atoi optarg) } optarg

def caseC (o : Options Double) (optarg : Arg) : Options Double :=
  caseY { o with chipSize := atoi optarg } optarg

/-- The body of the loop, for the option and the argument that `getopt` has returned. -/
def parseOption (o : Options Double) (option : Letter × Arg) : Options Double :=
  let optarg := option.2
  match option.1 with
  | .s => { o with mnNR := atoi optarg }
  | .f => { o with resFileTp := optarg }
  | .g => { o with resFileLat := optarg }
  | .h => { o with resFileLock := optarg }
  | .n => { o with nodeNR := atoi optarg }
  | .r => { o with runNR := atoi optarg }
  | .m => { o with mode := atoi optarg }
  | .d => { o with duration := atoi optarg }
  | .i => { o with nodeID := atoi optarg }
  | .t => { o with threadNR := atoi optarg }
  | .l => { o with lockNR := atoi optarg }
  | .z => { o with zipfian := atof optarg }
  | .w => { o with kReadRatio := atoi optarg }
  | .p => { o with pinning := atoi optarg }
  | .c => caseC o optarg
  | .y => caseY o optarg
  | .x => caseX o optarg
  | .q => caseQ o optarg

/-- What the variables hold when the loop begins: `*nodeID = getNodeNumber()`. -/
def Options.start (o : Options Double) (getNodeNumber : Int) : Options Double :=
  { o with nodeID := getNodeNumber }

/-- `parse_cli_args`, on variables that hold `o`. -/
def parseCliArgs (o : Options Double) (getNodeNumber : Int) (argv : List (Letter × Arg)) :
    Options Double :=
  argv.foldl (parseOption atof) (o.start getNodeNumber)

/-! ### One option, one variable -/

/-- The last occurrence of one of the letters. -/
def lastOf (letters : List Letter) (argv : List (Letter × Arg)) : Option (Letter × Arg) :=
  lastWith (fun option => decide (option.1 ∈ letters)) argv

/-- What the last occurrence of one of the letters gives, and `init` when there is none. -/
def lastValue {β : Type} (letters : List Letter) (conv : Arg → β) (init : β)
    (argv : List (Letter × Arg)) : β :=
  ((lastOf letters argv).map fun option => conv option.2).getD init

/-- Every variable has the value of the last occurrence of its own letter. -/
def perOption (o : Options Double) (getNodeNumber : Int) (argv : List (Letter × Arg)) :
    Options Double where
  threadNR := lastValue [.t] atoi o.threadNR argv
  nodeNR := lastValue [.n] atoi o.nodeNR argv
  mnNR := lastValue [.s] atoi o.mnNR argv
  lockNR := lastValue [.l] atoi o.lockNR argv
  runNR := lastValue [.r] atoi o.runNR argv
  nodeID := lastValue [.i] atoi getNodeNumber argv
  duration := lastValue [.d] atoi o.duration argv
  mode := lastValue [.m] atoi o.mode argv
  zipfian := lastValue [.z] atof o.zipfian argv
  kReadRatio := lastValue [.w] atoi o.kReadRatio argv
  pinning := lastValue [.p] atoi o.pinning argv
  chipSize := lastValue [.c] atoi o.chipSize argv
  dsmSize := lastValue [.y] (toUint64 ∘ atoi) o.dsmSize argv
  maxHandover := lastValue [.x] atoi o.maxHandover argv
  colocate := lastValue [.q] atoi o.colocate argv
  resFileTp := lastValue [.f] id o.resFileTp argv
  resFileLat := lastValue [.g] id o.resFileLat argv
  resFileLock := lastValue [.h] id o.resFileLock argv

/-! ### What the loop computes -/

variable {atof} {o : Options Double} {getNodeNumber : Int} {argv argv' : List (Letter × Arg)}

/-- A variable that the cases of some letters set, all to the same value of the argument. -/
theorem parse_field {β : Type} (get : Options Double → β) (letters : List Letter)
    (conv : Arg → β) (hstep : ∀ o option, get (parseOption atof o option) =
      if option.1 ∈ letters then conv option.2 else get o) :
    get (parseCliArgs atof o getNodeNumber argv) =
      lastValue letters conv (get (o.start getNodeNumber)) argv := by
  refine LastWith.get_foldl (fun o option => ?_) _ _
  rw [hstep]
  simp only [decide_eq_true_eq]

/-- `parse_cli_args` as it is: the letters above a variable's own in the switch set it too. -/
theorem parseCliArgs_eq : parseCliArgs atof o getNodeNumber argv =
    { perOption atof o getNodeNumber argv with
      dsmSize := lastValue [.c, .y] (toUint64 ∘ atoi) o.dsmSize argv
      maxHandover := lastValue [.c, .y, .x] atoi o.maxHandover argv
      colocate := lastValue [.c, .y, .x, .q] atoi o.colocate argv } := by
  apply Options.ext
  all_goals
    refine parse_field _ _ _ fun o option => ?_
    obtain ⟨letter, optarg⟩ := option
    cases letter <;> rfl

/-! ### When the letters do not get in each other's way -/

/-- The last of the letters that set a variable is its own, or gives the value it has. -/
def KeepsOwn {β : Type} (letters : List Letter) (own : Letter) (conv : Arg → β) (init : β)
    (argv : List (Letter × Arg)) : Prop :=
  ∀ option, lastOf letters argv = some option →
    option.1 = own ∨ conv option.2 = lastValue [own] conv init argv

theorem lastValue_iff {β : Type} {letters : List Letter} {own : Letter} {conv : Arg → β}
    {init : β} (hown : own ∈ letters) :
    lastValue letters conv init argv = lastValue [own] conv init argv ↔
      KeepsOwn letters own conv init argv := by
  cases hlast : lastOf letters argv with
  | none =>
      have hnone : lastOf [own] argv = none := by
        refine LastWith.eq_none.mpr fun option hoption => ?_
        have hnot := LastWith.eq_none.mp hlast option hoption
        simp only [decide_eq_true_eq, List.mem_singleton] at hnot ⊢
        intro heq
        exact hnot (heq ▸ hown)
      unfold lastValue KeepsOwn
      rw [hlast, hnone]
      refine iff_of_true rfl fun option hoption => ?_
      cases hoption
  | some last =>
      have hvalue : lastValue letters conv init argv = conv last.2 := by
        unfold lastValue
        rw [hlast]
        rfl
      rw [hvalue]
      constructor
      · intro heq option hoption
        rw [hlast] at hoption
        rw [← Option.some.inj hoption]
        exact Or.inr heq
      · intro hkeeps
        rcases hkeeps last hlast with hself | heq
        · have hlast' : lastOf [own] argv = some last := by
            refine LastWith.of_last (fun option hoption => ?_) hlast ?_
            · simp only [decide_eq_true_eq, List.mem_singleton] at hoption ⊢
              rw [hoption]
              exact hown
            · simp only [decide_eq_true_eq, List.mem_singleton]
              exact hself
          unfold lastValue
          rw [hlast']
          rfl
        · exact heq

/-- The condition for each of the three variables below `case 'c'`. -/
structure Undisturbed (o : Options Double) (argv : List (Letter × Arg)) : Prop where
  dsmSize : KeepsOwn [.c, .y] .y (toUint64 ∘ atoi) o.dsmSize argv
  maxHandover : KeepsOwn [.c, .y, .x] .x atoi o.maxHandover argv
  colocate : KeepsOwn [.c, .y, .x, .q] .q atoi o.colocate argv

theorem parse_perOption_iff : parseCliArgs atof o getNodeNumber argv =
    perOption atof o getNodeNumber argv ↔ Undisturbed o argv := by
  rw [parseCliArgs_eq]
  constructor
  · intro heq
    exact ⟨(lastValue_iff (by decide)).mp (congrArg Options.dsmSize heq),
      (lastValue_iff (by decide)).mp (congrArg Options.maxHandover heq),
      (lastValue_iff (by decide)).mp (congrArg Options.colocate heq)⟩
  · intro h
    rw [(lastValue_iff (by decide)).mpr h.dsmSize, (lastValue_iff (by decide)).mpr h.maxHandover,
      (lastValue_iff (by decide)).mpr h.colocate]
    rfl

/-! ### The order of the options -/

/-- All arguments of the options `c`, `y`, `x` and `q` are the same number. -/
def Uniform (argv : List (Letter × Arg)) : Prop :=
  ∀ a ∈ argv, ∀ b ∈ argv, a.1 ∈ [Letter.c, .y, .x, .q] → b.1 ∈ [Letter.c, .y, .x, .q] →
    atoi a.2 = atoi b.2

theorem lastValue_perm {β : Type} {letters : List Letter} {conv : Arg → β} {init : β}
    (hperm : argv'.Perm argv) (hsame : ∀ a ∈ argv, ∀ b ∈ argv, a.1 ∈ letters → b.1 ∈ letters →
      conv a.2 = conv b.2) :
    lastValue letters conv init argv' = lastValue letters conv init argv := by
  unfold lastValue
  have hmap : (lastOf letters argv').map (fun option => conv option.2) =
      (lastOf letters argv).map fun option => conv option.2 := by
    refine LastWith.map_perm hperm fun a ha b hb hpa hpb => ?_
    exact hsame a ha b hb (of_decide_eq_true hpa) (of_decide_eq_true hpb)
  rw [hmap]

/-- A letter that occurs once has one value. -/
theorem lastValue_perm_own {β : Type} {own : Letter} {conv : Arg → β} {init : β}
    (hperm : argv'.Perm argv) (hdistinct : (argv.map Prod.fst).Nodup) :
    lastValue [own] conv init argv' = lastValue [own] conv init argv := by
  refine lastValue_perm hperm fun a ha b hb hpa hpb => ?_
  have heq : a.1 = b.1 := (List.mem_singleton.mp hpa).trans (List.mem_singleton.mp hpb).symm
  rw [List.inj_on_of_nodup_map hdistinct ha hb heq]

theorem perOption_perm (hperm : argv'.Perm argv) (hdistinct : (argv.map Prod.fst).Nodup) :
    perOption atof o getNodeNumber argv' = perOption atof o getNodeNumber argv := by
  apply Options.ext <;> exact lastValue_perm_own hperm hdistinct

theorem parse_perm (huniform : Uniform argv) (hperm : argv'.Perm argv)
    (hdistinct : (argv.map Prod.fst).Nodup) :
    parseCliArgs atof o getNodeNumber argv' = parseCliArgs atof o getNodeNumber argv := by
  have hsame : ∀ a ∈ argv, ∀ b ∈ argv, a.1 ∈ [Letter.c, .y, .x, .q] →
      b.1 ∈ [Letter.c, .y, .x, .q] → atoi a.2 = atoi b.2 := huniform
  have hsub : ∀ letters : List Letter, letters ⊆ [Letter.c, .y, .x, .q] → ∀ a ∈ argv, ∀ b ∈ argv,
      a.1 ∈ letters → b.1 ∈ letters → atoi a.2 = atoi b.2 :=
    fun letters hletters a ha b hb hpa hpb => hsame a ha b hb (hletters hpa) (hletters hpb)
  rw [parseCliArgs_eq, parseCliArgs_eq, perOption_perm hperm hdistinct]
  rw [lastValue_perm hperm (hsub [.c, .y, .x] (by decide)), lastValue_perm hperm hsame]
  rw [lastValue_perm hperm fun a ha b hb hpa hpb =>
    congrArg toUint64 (hsub [.c, .y] (by decide) a ha b hb hpa hpb)]

/-- Every pair can be moved to the end. -/
theorem exists_perm_last {a : Letter × Arg} (ha : a ∈ argv) :
    ∃ rest : List (Letter × Arg), (rest ++ [a]).Perm argv := by
  have hcons : (a :: argv.erase a).Perm argv := (List.perm_cons_erase ha).symm
  exact ⟨argv.erase a, List.perm_append_comm.trans hcons⟩

/-- The last option is what `colocate` comes from, when it is one of the four. -/
theorem colocate_last {rest : List (Letter × Arg)} {a : Letter × Arg}
    (ha : a.1 ∈ [Letter.c, .y, .x, .q]) :
    (parseCliArgs atof o getNodeNumber (rest ++ [a])).colocate = atoi a.2 := by
  have hlast : lastOf [.c, .y, .x, .q] (rest ++ [a]) = some a := by
    unfold lastOf
    rw [LastWith.concat, if_pos (decide_eq_true ha)]
  rw [parseCliArgs_eq]
  show lastValue [.c, .y, .x, .q] atoi o.colocate (rest ++ [a]) = atoi a.2
  unfold lastValue
  rw [hlast]
  rfl

theorem uniform_of_perm (h : ∀ argv', argv'.Perm argv →
    parseCliArgs atof o getNodeNumber argv' = parseCliArgs atof o getNodeNumber argv) :
    Uniform argv := by
  have hvalue : ∀ a ∈ argv, a.1 ∈ [Letter.c, .y, .x, .q] →
      (parseCliArgs atof o getNodeNumber argv).colocate = atoi a.2 := by
    intro a ha hletter
    obtain ⟨rest, hperm⟩ := exists_perm_last ha
    rw [← h _ hperm]
    exact colocate_last hletter
  intro a ha b hb hpa hpb
  rw [← hvalue a ha hpa, hvalue b hb hpb]

end Parse

/-- The variables have the values of their own options exactly when the options that fall
through leave those they set as they should be.  For distinct options the order does not
matter exactly when all that fall into `case 'q'` have the same number. -/
theorem parse_options_iff {Double : Type} (atof : Arg → Double) (o : Options Double)
    (getNodeNumber : Int) (argv : List (Letter × Arg)) :
    (parseCliArgs atof o getNodeNumber argv = perOption atof o getNodeNumber argv ↔
      Undisturbed o argv) ∧
    ((argv.map Prod.fst).Nodup →
      ((∀ argv', argv'.Perm argv →
          parseCliArgs atof o getNodeNumber argv' = parseCliArgs atof o getNodeNumber argv) ↔
        Uniform argv)) := by
  refine ⟨parse_perOption_iff, fun hdistinct => ⟨uniform_of_perm, fun huniform argv' hperm => ?_⟩⟩
  exact parse_perm huniform hperm hdistinct

/-- The variables of the benchmark before its command line is read. -/
def unset : Options Int where
  threadNR := 0
  nodeNR := 0
  mnNR := 0
  lockNR := 0
  runNR := 0
  nodeID := 0
  duration := 0
  mode := 0
  zipfian := 0
  kReadRatio := 0
  pinning := 1
  chipSize := 128
  dsmSize := 4
  maxHandover := 0
  colocate := 0
  resFileTp := []
  resFileLat := []
  resFileLock := []

/-- The order of `_run.sh`: every option comes after those that fall into it. -/
def driverOrder : List (Letter × Arg) :=
  [(.c, ['1', '2', '8']), (.y, ['8']), (.x, ['1', '6']), (.q, ['1'])]

theorem driverOrder_undisturbed : Undisturbed unset driverOrder := by
  refine ⟨?_, ?_, ?_⟩
  · intro option hoption
    exact Or.inl (congrArg Prod.fst (Option.some.inj hoption)).symm
  · intro option hoption
    exact Or.inl (congrArg Prod.fst (Option.some.inj hoption)).symm
  · intro option hoption
    exact Or.inl (congrArg Prod.fst (Option.some.inj hoption)).symm

theorem driverOrder_not_uniform : ¬ Uniform driverOrder := by
  intro huniform
  have heq := huniform (.c, ['1', '2', '8']) (by decide) (.q, ['1']) (by decide) (by decide)
    (by decide)
  exact absurd heq (by decide)

/-- The driver's options have their values, and only because of the order they are in. -/
theorem parse_driver_order :
    parseCliArgs atoi unset 0 driverOrder = perOption atoi unset 0 driverOrder ∧
    ¬ ∀ argv', argv'.Perm driverOrder →
      parseCliArgs atoi unset 0 argv' = parseCliArgs atoi unset 0 driverOrder := by
  obtain ⟨hown, horder⟩ := parse_options_iff atoi unset 0 driverOrder
  refine ⟨hown.mpr driverOrder_undisturbed, fun h => ?_⟩
  exact driverOrder_not_uniform ((horder (by decide)).mp h)

/-- `-q 0 -x 16` leaves 16 in `colocate`, and `-x 16 -q 0` leaves 0 there. -/
theorem parse_order_matters :
    parseCliArgs atoi unset 0 [(.q, ['0']), (.x, ['1', '6'])] ≠
      perOption atoi unset 0 [(.q, ['0']), (.x, ['1', '6'])] ∧
    parseCliArgs atoi unset 0 [(.q, ['0']), (.x, ['1', '6'])] ≠
      parseCliArgs atoi unset 0 [(.x, ['1', '6']), (.q, ['0'])] := by
  refine ⟨fun heq => ?_, fun heq => ?_⟩
  · exact absurd (congrArg Options.colocate heq) (by decide)
  · exact absurd (congrArg Options.colocate heq) (by decide)

end Dal.CommandLine
