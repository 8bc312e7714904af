import Xv6Users.Userland.Accounts

/-!
# The syntax of the options

`parseCommandLineArguments` of useradd, groupadd and usermod against the syntax that
their comments give: options, each with a value of its own unless it is a flag, and the
name as the last word.  The loop takes the word behind an option as its value even if
that word is the name, and copies values of any length.
-/

namespace Xv6Users.OptionSyntax

open Accounts Ulib List Option

/-- The three programs with this parser. -/
inductive Program where
  | useradd
  | groupadd
  | usermod
  deriving DecidableEq

def Program.getPositionInArguments : Program → List Byte → Option Switch
  | useradd => Useradd.getPositionInArguments
  | groupadd => Groupadd.getPositionInArguments
  | usermod => Usermod.getPositionInArguments

/-- The number of argument buffers that the program uses; the name is the last. -/
def Program.count : Program → ℕ
  | useradd => 4
  | groupadd => 2
  | usermod => 8

variable (program : Program)

/-- Words of the documented syntax, with the value of each option and the name. -/
inductive Derives : List (List Byte) → List (ℕ × List Byte) → List Byte → Prop where
  | name (word : List Byte) : Derives [word] [] word
  | flag {command : List Byte} {position : ℕ} {words pairs name}
      (hcommand : program.getPositionInArguments command = some ⟨position, true⟩)
      (hwords : Derives words pairs name) :
      Derives (command :: words) ((position, str "1") :: pairs) name
  | value {command value : List Byte} {position : ℕ} {words pairs name}
      (hcommand : program.getPositionInArguments command = some ⟨position, false⟩)
      (hwords : Derives words pairs name) :
      Derives (command :: value :: words) ((position, value) :: pairs) name

/-- Where the loop ends: at the name, behind it or at an unknown option. -/
inductive Ending where
  | atName
  | behindName
  | unknown
  deriving DecidableEq

/-- The values that the loop stores, in their order, and where it ends. -/
def scan : List (List Byte) → List (ℕ × List Byte) × Ending
  | [] => ([], .behindName)
  | [_] => ([], .atName)
  | command :: value :: rest =>
    match program.getPositionInArguments command with
    | none => ([], .unknown)
    | some ⟨position, true⟩ =>
      ((position, str "1") :: (scan (value :: rest)).1, (scan (value :: rest)).2)
    | some ⟨position, false⟩ => ((position, value) :: (scan rest).1, (scan rest).2)

/-- The indices of `argv` that the loop reads from `i` on, where `words` begins. -/
def reads : ℕ → List (List Byte) → List ℕ
  | i, command :: value :: rest =>
    match program.getPositionInArguments command with
    | none => [i]
    | some ⟨_, true⟩ => i :: reads (i + 1) (value :: rest)
    | some ⟨_, false⟩ => i :: (i + 1) :: reads (i + 2) rest
  | _, _ => []

/-- Every string that is copied fits its buffer. -/
def Fits (words : List (List Byte)) : Prop :=
  ∀ copied ∈ (scan program words).1.map Prod.snd ++ words.getLast?.toList,
    copied.length < stringSize

/-- The option before the name takes the name as its value. -/
def Dangling (words : List (List Byte)) : Prop :=
  words ≠ [] ∧ (scan program words).2 = .behindName

/-- The parser accepts the documented syntax only and all of it, each buffer then holds
the value of the last occurrence of its option, and only `argv[1..argc-1]` is read. -/
def Accepts (words : List (List Byte)) : Prop :=
  ∃ result, parseCommandLineArguments program.getPositionInArguments program.count words =
      some result ∧
    (result.isSome ↔ ∃ pairs name, Derives program words pairs name) ∧
    (∀ arguments pairs name, result = some arguments → Derives program words pairs name →
      arguments[program.count - 1]? = some name ∧
      ∀ position < program.count - 1,
        arguments[position]? = some ((pairs.reverse.lookup position).getD [])) ∧
    ∀ i ∈ reads program 1 words, 1 ≤ i ∧ i ≤ words.length

variable {program} {words arguments : List (List Byte)}

theorem derives_iff {pairs : List (ℕ × List Byte)} {name : List Byte} :
    Derives program words pairs name ↔
      scan program words = (pairs, .atName) ∧ words.getLast? = some name := by
  constructor
  · intro hderives
    induction hderives with
    | name word => exact ⟨rfl, rfl⟩
    | @flag command position words pairs name hcommand hwords ih =>
      cases words with
      | nil => cases hwords
      | cons value rest => simp [scan, hcommand, ih.1, ← ih.2]
    | @value command value position words pairs name hcommand hwords ih =>
      cases words with
      | nil => cases hwords
      | cons other rest => simp [scan, hcommand, ih.1, ← ih.2]
  · rintro ⟨hscan, hlast⟩
    fun_induction scan program words generalizing pairs with
    | case1 => cases hscan
    | case2 word =>
      cases hscan
      cases hlast
      exact .name word
    | case3 => cases hscan
    | case4 command value rest position hcommand ih =>
      obtain ⟨rfl, hending⟩ := Prod.mk.inj hscan
      exact .flag hcommand (ih (Prod.ext rfl hending) (by simpa using hlast))
    | case5 command value rest position hcommand ih =>
      obtain ⟨rfl, hending⟩ := Prod.mk.inj hscan
      cases rest with
      | nil => cases hending
      | cons other rest => exact .value hcommand (ih (Prod.ext rfl hending) (by simpa using hlast))

theorem mem_reads {i index : ℕ} (hindex : index ∈ reads program i words) :
    i ≤ index ∧ index < i + words.length := by
  fun_induction reads program i words <;> grind

theorem position_lt {command : List Byte} {switch : Switch}
    (hcommand : program.getPositionInArguments command = some switch) :
    switch.position + 1 < program.count := by
  cases program <;>
    simp only [Program.getPositionInArguments, Useradd.getPositionInArguments,
      Groupadd.getPositionInArguments, Usermod.getPositionInArguments] at hcommand <;>
    split_ifs at hcommand <;> cases hcommand <;> decide

theorem scan_position_lt {pair : ℕ × List Byte} (hpair : pair ∈ (scan program words).1) :
    pair.1 + 1 < program.count := by
  fun_induction scan program words with
  | case1 => cases hpair
  | case2 => cases hpair
  | case3 => cases hpair
  | case4 command value rest position hcommand ih =>
    rcases mem_cons.1 hpair with rfl | hpair
    · exact position_lt hcommand
    · exact ih hpair
  | case5 command value rest position hcommand ih =>
    rcases mem_cons.1 hpair with rfl | hpair
    · exact position_lt hcommand
    · exact ih hpair

/-- The buffers after a run of the loop. -/
def stored (pairs : List (ℕ × List Byte)) (arguments : List (List Byte)) : List (List Byte) :=
  pairs.foldl (fun arguments pair => arguments.set pair.1 pair.2) arguments

theorem getElem?_stored (pairs : List (ℕ × List Byte))
    {position : ℕ} {value : List Byte} (hvalue : arguments[position]? = some value) :
    (stored pairs arguments)[position]? = some ((pairs.reverse.lookup position).getD value) := by
  induction pairs generalizing arguments value with
  | nil => exact hvalue
  | cons pair pairs ih =>
    have hset : (arguments.set pair.1 pair.2)[position]? =
        some (([pair].lookup position).getD value) := by
      rw [getElem?_set, hvalue]
      have hlength : position < arguments.length := (List.getElem?_eq_some_iff.1 hvalue).1
      by_cases hsame : pair.1 = position
      · simp [hsame, hlength, lookup]
      · simp [hsame, lookup, beq_false_of_ne (Ne.symm hsame)]
    rw [stored, foldl_cons, ← stored, ih hset, reverse_cons, lookup_append]
    cases pairs.reverse.lookup position <;> rfl

theorem parseLoop_eq_some {result : Option (List (List Byte))} :
    parseLoop program.getPositionInArguments words arguments = some result ↔
      (∀ pair ∈ (scan program words).1, pair.2.length < stringSize) ∧
        result = if (scan program words).2 = .unknown then none
          else some (stored (scan program words).1 arguments) := by
  fun_induction scan program words generalizing arguments with
  | case1 => simp [parseLoop, stored, eq_comm]
  | case2 => simp [parseLoop, stored, eq_comm]
  | case3 command value rest hcommand => simp [parseLoop, hcommand, eq_comm]
  | case4 command value rest position hcommand ih =>
    rw [parseLoop, hcommand]
    simp only [if_true, ih, forall_mem_cons]
    have hone : (str "1").length < stringSize := by decide
    simp [hone, stored]
  | case5 command value rest position hcommand ih =>
    rw [parseLoop, hcommand]
    simp only [Bool.false_eq_true, if_false, bind_eq_bind, bind_eq_some_iff,
      strcpy_eq_some, forall_mem_cons, ih]
    constructor
    · rintro ⟨_, ⟨hvalue, rfl⟩, hrest, rfl⟩
      exact ⟨⟨hvalue, hrest⟩, rfl⟩
    · rintro ⟨⟨hvalue, hrest⟩, rfl⟩
      exact ⟨_, ⟨hvalue, rfl⟩, hrest, rfl⟩

/-- The buffers before the loop: empty except for the name. -/
def named (program : Program) (name : List Byte) : List (List Byte) :=
  (replicate program.count []).set (program.count - 1) name

theorem parse_eq_some {result : Option (List (List Byte))} (hne : words ≠ []) :
    parseCommandLineArguments program.getPositionInArguments program.count words = some result ↔
      Fits program words ∧ result = if (scan program words).2 = .unknown then none
        else some (stored (scan program words).1 (named program (words.getLast hne))) := by
  rw [parseCommandLineArguments, Fits, List.getLast?_eq_some_getLast hne]
  simp only [Option.bind_eq_bind, Option.bind_eq_some_iff, strcpy_eq_some, parseLoop_eq_some,
    Option.toList_some, List.forall_mem_append, List.forall_mem_map, List.mem_singleton,
    forall_eq, named]
  constructor
  · rintro ⟨_, ⟨hname, rfl⟩, hpairs, rfl⟩
    exact ⟨⟨hpairs, hname⟩, rfl⟩
  · rintro ⟨⟨hpairs, hname⟩, rfl⟩
    exact ⟨_, ⟨hname, rfl⟩, hpairs, rfl⟩

/-- What the buffers hold when the loop has ended at the name. -/
theorem stored_named (program : Program) (hne : words ≠ []) :
    (stored (scan program words).1 (named program (words.getLast hne)))[program.count - 1]? =
        some (words.getLast hne) ∧
      ∀ position < program.count - 1,
        (stored (scan program words).1 (named program (words.getLast hne)))[position]? =
          some (((scan program words).1.reverse.lookup position).getD []) := by
  have hcount : 0 < program.count := by cases program <;> decide
  constructor
  · have hname : (named program (words.getLast hne))[program.count - 1]? =
        some (words.getLast hne) := by simp [named, hcount]
    have hnone : (scan program words).1.reverse.lookup (program.count - 1) = none := by
      rw [lookup_eq_none_iff]
      intro pair hpair
      have hlow := scan_position_lt (mem_reverse.1 hpair)
      exact bne_iff_ne.2 (by omega)
    rw [getElem?_stored _ hname, hnone, getD_none]
  · intro position hposition
    refine getElem?_stored _ ?_
    rw [named, getElem?_set_ne (by omega), getElem?_replicate, if_pos (by omega)]

/-- The parser of each program does what it should exactly if all copied strings fit
their buffers and the name is not taken as the value of the option before it. -/
theorem accepts_iff (program : Program) (words : List (List Byte)) :
    Accepts program words ↔ Fits program words ∧ ¬ Dangling program words := by
  have hreads : ∀ i ∈ reads program 1 words, 1 ≤ i ∧ i ≤ words.length := by
    intro i hi
    have hbounds := mem_reads hi
    omega
  by_cases hne : words = []
  · subst hne
    have hnot : ¬ ∃ pairs name, Derives program [] pairs name := by
      rintro ⟨_, _, ⟨⟩⟩
    constructor
    · exact fun _ => ⟨by simp [Fits, scan], fun hdangling => hdangling.1 rfl⟩
    · exact fun _ => ⟨none, rfl, by simpa using hnot, by simp, hreads⟩
  constructor
  · rintro ⟨result, hparse, hiff, -⟩
    obtain ⟨hfits, rfl⟩ := (parse_eq_some hne).1 hparse
    refine ⟨hfits, fun ⟨_, hbehind⟩ => ?_⟩
    obtain ⟨pairs, name, hderives⟩ := hiff.1 (by simp [hbehind])
    simp [(derives_iff.1 hderives).1] at hbehind
  · rintro ⟨hfits, hdangling⟩
    refine ⟨_, (parse_eq_some hne).2 ⟨hfits, rfl⟩, ?_, ?_, hreads⟩
    · constructor
      · intro hsome
        have hending : (scan program words).2 = .atName := by
          cases hend : (scan program words).2 with
          | atName => rfl
          | behindName => exact absurd ⟨hne, hend⟩ hdangling
          | unknown => simp [hend] at hsome
        exact ⟨_, _, derives_iff.2 ⟨Prod.ext rfl hending, getLast?_eq_some_getLast hne⟩⟩
      · rintro ⟨pairs, name, hderives⟩
        simp [(derives_iff.1 hderives).1]
    · intro arguments pairs name hresult hderives
      obtain ⟨hscan, hlast⟩ := derives_iff.1 hderives
      have hstored := stored_named program hne
      rw [getLast?_eq_some_getLast hne, some_inj] at hlast
      simp only [hscan, reduceCtorEq, if_false, some_inj] at hresult hstored
      rw [hresult, hlast] at hstored
      exact hstored

/-- `useradd -d bob` is accepted: bob is both the home directory and the name. -/
theorem useradd_takes_name :
    parseCommandLineArguments Useradd.getPositionInArguments 4 [str "-d", str "bob"] =
        some (some [str "bob", [], [], str "bob"]) ∧
      ¬ ∃ pairs name, Derives .useradd [str "-d", str "bob"] pairs name := by
  constructor
  · refine (@parse_eq_some .useradd _ _ (by simp)).2 ⟨?_, by decide +kernel⟩
    unfold Fits
    decide +kernel
  · rintro ⟨pairs, name, hderives⟩
    have hscan : (scan .useradd [str "-d", str "bob"]).2 = .behindName := by decide +kernel
    simp [(derives_iff.1 hderives).1] at hscan

end Xv6Users.OptionSyntax
