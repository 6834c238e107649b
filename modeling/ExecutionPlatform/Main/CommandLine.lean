import ExecutionPlatform.Main.SimRunner
import ExecutionPlatform.Foundations.Numerals

/-! The runner's command line: four options with a value each, and help. -/
namespace ExecutionPlatform.Main
open Foundations

def kDefaultOps : Nat := 100000

structure Config where
  host : String := "localhost"
  port : Int := 5010
  ops : BitVec 64 := BitVec.ofNat 64 kDefaultOps
  seed : BitVec 64 := 0xC0FFEEBABE
  deriving DecidableEq

/-- Parsing returns, or ends the process with its exit code and what it wrote. -/
inductive Parsed where
  | config (cfg : Config)
  | exit (code : Nat) (stdout stderr : String)
  deriving DecidableEq

def usage : String :=
  "usage: sim_runner [--host H] [--port P] [--ops N] [--seed S]\n" ++
  "  --host   KDB+ ticker plant host (default: localhost)\n" ++
  "  --port   KDB+ ticker plant port (default: 5010)\n" ++
  "  --ops    number of book operations to drive (default: " ++ toString kDefaultOps ++ ")\n" ++
  "  --seed   xorshift64 seed for the workload (default: 0xC0FFEEBABE)\n"

/-- An option without its value. -/
def requiresArgument (name : String) : Parsed :=
  .exit 2 "" ("sim_runner: --" ++ name ++ " requires an argument\n")

/-- The arguments after the program's name, from left to right. -/
def parseArgs (cfg : Config) : List String → Parsed
  | [] => .config cfg
  | a :: args =>
    if a = "--host" then
      match args with
      | [] => requiresArgument "host"
      | v :: args => parseArgs { cfg with host := v } args
    else if a = "--port" then
      match args with
      | [] => requiresArgument "port"
      | v :: args => parseArgs { cfg with port := atoi v } args
    else if a = "--ops" then
      match args with
      | [] => requiresArgument "ops"
      | v :: args => parseArgs { cfg with ops := strtoull v 10 } args
    else if a = "--seed" then
      match args with
      | [] => requiresArgument "seed"
      | v :: args => parseArgs { cfg with seed := strtoull v 0 } args
    else if a = "--help" ∨ a = "-h" then .exit 0 usage ""
    else .exit 2 "" ("sim_runner: unknown argument '" ++ a ++ "'\n")

/-- The options that take a value. -/
inductive Field where
  | host
  | port
  | ops
  | seed
  deriving DecidableEq

namespace Field

def name : Field → String
  | host => "host"
  | port => "port"
  | ops => "ops"
  | seed => "seed"

def flag (f : Field) : String := "--" ++ f.name

def set (f : Field) (v : String) (cfg : Config) : Config :=
  match f with
  | host => { cfg with host := v }
  | port => { cfg with port := atoi v }
  | ops => { cfg with ops := strtoull v 10 }
  | seed => { cfg with seed := strtoull v 0 }

end Field

def isHelp (a : String) : Prop := a = "--help" ∨ a = "-h"

theorem parseArgs_missing (cfg : Config) (f : Field) :
    parseArgs cfg [f.flag] = requiresArgument f.name := by
  cases f <;> rfl

theorem parseArgs_set (cfg : Config) (f : Field) (v : String) (args : List String) :
    parseArgs cfg (f.flag :: v :: args) = parseArgs (f.set v cfg) args := by
  cases f <;> rfl

theorem parseArgs_other (cfg : Config) {a : String} (h : ∀ f : Field, a ≠ f.flag) (args : List String) :
    parseArgs cfg (a :: args) =
      if a = "--help" ∨ a = "-h" then .exit 0 usage ""
      else .exit 2 "" ("sim_runner: unknown argument '" ++ a ++ "'\n") := by
  rw [parseArgs.eq_def]
  exact (if_neg (h .host)).trans ((if_neg (h .port)).trans ((if_neg (h .ops)).trans (if_neg (h .seed))))

/-- Options with their values, as they stand on the command line. -/
def words : List (Field × String) → List String
  | [] => []
  | (f, v) :: pairs => f.flag :: v :: words pairs

/-- The last value of an option counts. -/
def Config.apply (cfg : Config) (pairs : List (Field × String)) : Config :=
  pairs.foldl (fun cfg p => p.1.set p.2 cfg) cfg

theorem parseArgs_words (cfg : Config) (pairs : List (Field × String)) (rest : List String) :
    parseArgs cfg (words pairs ++ rest) = parseArgs (cfg.apply pairs) rest := by
  induction pairs generalizing cfg with
  | nil => rfl
  | cons p pairs ih => exact (parseArgs_set cfg p.1 p.2 (words pairs ++ rest)).trans (ih _)

/-- Where the options with values end: at the end, at an option without one, or at another word. -/
inductive Stop : List String → Prop
  | nil : Stop []
  | missing (f : Field) : Stop [f.flag]
  | other {a : String} (h : ∀ f : Field, a ≠ f.flag) (args : List String) : Stop (a :: args)

theorem exists_stop (args : List String) : ∃ pairs rest, args = words pairs ++ rest ∧ Stop rest := by
  induction args using List.twoStepInduction with
  | nil => exact ⟨[], [], rfl, .nil⟩
  | singleton a =>
    by_cases h : ∃ f : Field, a = f.flag
    · obtain ⟨f, rfl⟩ := h
      exact ⟨[], [f.flag], rfl, .missing f⟩
    · exact ⟨[], [a], rfl, .other (not_exists.mp h) []⟩
  | cons_cons a v args ih _ =>
    by_cases h : ∃ f : Field, a = f.flag
    · obtain ⟨f, rfl⟩ := h
      obtain ⟨pairs, rest, rfl, hstop⟩ := ih
      exact ⟨(f, v) :: pairs, rest, rfl, hstop⟩
    · exact ⟨[], a :: v :: args, rfl, .other (not_exists.mp h) (v :: args)⟩

/-- A word that is neither an option nor a call for help. -/
def Unknown (a : String) : Prop := (∀ f : Field, a ≠ f.flag) ∧ ¬ isHelp a

def unknownArgument (a : String) : Parsed :=
  .exit 2 "" ("sim_runner: unknown argument '" ++ a ++ "'\n")

section Verdicts
variable (cfg : Config) (pairs : List (Field × String))

theorem parse_complete : parseArgs cfg (words pairs) = .config (cfg.apply pairs) := by
  have h := parseArgs_words cfg pairs []
  rwa [List.append_nil] at h

/-- A seed can be given in hexadecimal, as the usage text gives its default. -/
theorem parse_seed_hex (w : BitVec 64) :
    parseArgs cfg (words (pairs ++ [(.seed, "0x" ++ String.ofList (Nat.toDigits 16 w.toNat))])) =
      .config { cfg.apply pairs with seed := w } := by
  rw [parse_complete, Config.apply, List.foldl_append]
  exact congrArg (fun seed => Parsed.config { cfg.apply pairs with seed := seed }) (strtoull_hex w)

theorem parse_missing (f : Field) : parseArgs cfg (words pairs ++ [f.flag]) = requiresArgument f.name :=
  (parseArgs_words cfg pairs [f.flag]).trans (parseArgs_missing _ f)

theorem parse_help {a : String} (h : isHelp a) (rest : List String) :
    parseArgs cfg (words pairs ++ a :: rest) = .exit 0 usage "" := by
  have hflag : ∀ f : Field, a ≠ f.flag := by
    intro f
    rcases h with rfl | rfl <;> cases f <;> decide
  rw [parseArgs_words, parseArgs_other _ hflag]
  exact if_pos h

theorem parse_unknown {a : String} (h : Unknown a) (rest : List String) :
    parseArgs cfg (words pairs ++ a :: rest) = unknownArgument a := by
  rw [parseArgs_words, parseArgs_other _ h.1]
  exact if_neg h.2

end Verdicts

/-- The grammar: what a command line says, with the configuration it starts from. -/
inductive Derives (cfg : Config) : List String → Parsed → Prop
  | complete (pairs : List (Field × String)) : Derives cfg (words pairs) (.config (cfg.apply pairs))
  | help (pairs : List (Field × String)) {a : String} (h : isHelp a) (rest : List String) :
      Derives cfg (words pairs ++ a :: rest) (.exit 0 usage "")
  | missing (pairs : List (Field × String)) (f : Field) :
      Derives cfg (words pairs ++ [f.flag]) (requiresArgument f.name)
  | unknown (pairs : List (Field × String)) {a : String} (h : Unknown a) (rest : List String) :
      Derives cfg (words pairs ++ a :: rest) (unknownArgument a)

theorem Derives.parse {cfg : Config} {args : List String} {r : Parsed} (h : Derives cfg args r) :
    parseArgs cfg args = r := by
  cases h with
  | complete pairs => exact parse_complete cfg pairs
  | help pairs h rest => exact parse_help cfg pairs h rest
  | missing pairs f => exact parse_missing cfg pairs f
  | unknown pairs h rest => exact parse_unknown cfg pairs h rest

theorem parseArgs_derives (cfg : Config) (args : List String) : Derives cfg args (parseArgs cfg args) := by
  obtain ⟨pairs, rest, rfl, hstop⟩ := exists_stop args
  cases hstop with
  | nil =>
    rw [List.append_nil, parse_complete]
    exact .complete pairs
  | missing f =>
    rw [parse_missing]
    exact .missing pairs f
  | @other a h rest =>
    by_cases hhelp : isHelp a
    · rw [parse_help cfg pairs hhelp]
      exact .help pairs hhelp rest
    · rw [parse_unknown cfg pairs ⟨h, hhelp⟩]
      exact .unknown pairs ⟨h, hhelp⟩ rest

/-- Every command line says one thing, and that is what the parser makes of it. -/
theorem parseArgs_iff {cfg : Config} {args : List String} {r : Parsed} :
    parseArgs cfg args = r ↔ Derives cfg args r := by
  constructor
  · rintro rfl
    exact parseArgs_derives cfg args
  · exact Derives.parse

/-- What the command line is for: the parser returns exactly for options that each have a value, the
last one of each counting; it prints the usage and exits 0 exactly if such options are followed by a
call for help; and it exits 2, saying why, exactly if they are followed by an option without a value
or a word it does not know. -/
theorem parseArgs_grammar (cfg : Config) (args : List String) :
    (∀ cfg', parseArgs cfg args = .config cfg' ↔ ∃ pairs, args = words pairs ∧ cfg' = cfg.apply pairs) ∧
      (∀ out err, parseArgs cfg args = .exit 0 out err ↔
        (∃ pairs a rest, args = words pairs ++ a :: rest ∧ isHelp a) ∧ out = usage ∧ err = "") ∧
      (∀ out err, parseArgs cfg args = .exit 2 out err ↔ out = "" ∧
        ((∃ pairs f, args = words pairs ++ [Field.flag f] ∧
            err = "sim_runner: --" ++ f.name ++ " requires an argument\n") ∨
          ∃ pairs a rest, args = words pairs ++ a :: rest ∧ Unknown a ∧
            err = "sim_runner: unknown argument '" ++ a ++ "'\n")) ∧
      ∀ code out err, parseArgs cfg args = .exit code out err → code = 0 ∨ code = 2 := by
  refine ⟨fun cfg' => ?_, fun out err => ?_, fun out err => ?_, fun code out err => ?_⟩
  · rw [parseArgs_iff]
    constructor
    · intro h
      cases h with
      | complete pairs => exact ⟨pairs, rfl, rfl⟩
    · rintro ⟨pairs, rfl, rfl⟩
      exact .complete pairs
  · rw [parseArgs_iff]
    constructor
    · intro h
      cases h with
      | @help pairs a hhelp rest => exact ⟨⟨pairs, a, rest, rfl, hhelp⟩, rfl, rfl⟩
    · rintro ⟨⟨pairs, a, rest, rfl, hhelp⟩, rfl, rfl⟩
      exact .help pairs hhelp rest
  · rw [parseArgs_iff]
    constructor
    · intro h
      cases h with
      | missing pairs f => exact ⟨rfl, .inl ⟨pairs, f, rfl, rfl⟩⟩
      | @unknown pairs a hunknown rest => exact ⟨rfl, .inr ⟨pairs, a, rest, rfl, hunknown, rfl⟩⟩
    · rintro ⟨rfl, ⟨pairs, f, rfl, rfl⟩ | ⟨pairs, a, rest, rfl, hunknown, rfl⟩⟩
      · exact .missing pairs f
      · exact .unknown pairs hunknown rest
  · rw [parseArgs_iff]
    intro h
    cases h with
    | help => exact .inl rfl
    | missing => exact .inr rfl
    | unknown => exact .inr rfl

/-- The words that give a configuration its values. -/
def Config.fields (cfg : Config) : List (Field × String) :=
  [(.host, cfg.host), (.port, toString cfg.port), (.ops, toString cfg.ops.toNat),
    (.seed, toString cfg.seed.toNat)]

theorem set_comm {f g : Field} (h : f ≠ g) (v w : String) (cfg : Config) :
    g.set w (f.set v cfg) = f.set v (g.set w cfg) := by
  cases f <;> cases g <;> first | rfl | exact absurd rfl h

theorem fields_unique (cfg : Config) {p q : Field × String} (hp : p ∈ cfg.fields) (hq : q ∈ cfg.fields)
    (h : p.1 = q.1) : p = q := by
  simp only [Config.fields, List.mem_cons, List.not_mem_nil, or_false] at hp hq
  rcases hp with rfl | rfl | rfl | rfl <;> rcases hq with rfl | rfl | rfl | rfl <;>
    first | rfl | cases h

/-- A configuration can be written on the command line and is read back, in whatever order its
options stand and whatever options stand before them. -/
theorem parseArgs_render (start cfg : Config) (hlo : -2 ^ 31 ≤ cfg.port) (hhi : cfg.port < 2 ^ 31)
    (earlier : List (Field × String)) {pairs : List (Field × String)} (hperm : pairs.Perm cfg.fields) :
    parseArgs start (words (earlier ++ pairs)) = .config cfg := by
  rw [parse_complete, Config.apply, List.foldl_append]
  have hcomm : ∀ p ∈ pairs, ∀ q ∈ pairs, ∀ c : Config,
      q.1.set q.2 (p.1.set p.2 c) = p.1.set p.2 (q.1.set q.2 c) := by
    intro p hp q hq c
    by_cases hsame : p.1 = q.1
    · rw [fields_unique cfg (hperm.subset hp) (hperm.subset hq) hsame]
    · exact set_comm hsame p.2 q.2 c
  rw [hperm.foldl_eq' hcomm]
  have hport := atoi_toString hlo hhi
  have hops := strtoull_toString (.inl rfl : 10 = 10 ∨ 10 = 0) cfg.ops
  have hseed := strtoull_toString (.inr rfl : 0 = 10 ∨ 0 = 0) cfg.seed
  change Parsed.config ⟨cfg.host, atoi (toString cfg.port), strtoull (toString cfg.ops.toNat) 10,
    strtoull (toString cfg.seed.toNat) 0⟩ = _
  rw [hport, hops, hseed]

/-- A port set twice and a seed before it. -/
theorem parseArgs_render_twice :
    parseArgs {} ["--port", "9", "--seed", "7", "--port", "5011", "--ops", "20", "--host", "tape"] =
      .config ⟨"tape", 5011, 20, 7⟩ := by
  have hpairs : [(Field.seed, "7"), (.port, "5011"), (.ops, "20"), (.host, "tape")].Perm
      (Config.fields ⟨"tape", 5011, 20, 7⟩) := by decide
  exact parseArgs_render {} ⟨"tape", 5011, 20, 7⟩ (by decide) (by decide) [(.port, "9")] hpairs

end ExecutionPlatform.Main
