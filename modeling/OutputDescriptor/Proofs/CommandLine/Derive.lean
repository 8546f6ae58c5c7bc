import OutputDescriptor.CommandLine
import OutputDescriptor.Proofs.Wildcard

/-!
The command that derives a range of children prints the whole range or nothing.

It prints the lines of each child before it tries the next one, so a child without scripts in the
middle of the range would leave a part of it printed. But as long as derivation itself never fails,
either all children of a range have scripts or none has.

What is printed is told character by character: a row for each script, with a line break behind it.
-/

namespace OutputDescriptor.CommandLine

/-! ### Texts -/

theorem toList_padLeft (width : Nat) (text : String) :
    (padLeft width text).toList =
      List.replicate (width - text.toList.length) ' ' ++ text.toList := by
  simp [padLeft, String.length_toList]

theorem toList_padRight (width : Nat) (text : String) :
    (padRight width text).toList =
      text.toList ++ List.replicate (width - text.toList.length) ' ' := by
  simp [padRight, String.length_toList]

theorem toList_ofLines (lines : List String) :
    (ofLines lines).toList = (lines.map String.toList).flatMap (· ++ ['\n']) := by
  simp [ofLines, String.toList_join, List.flatMap_map]

/-! ### Reports and outcomes -/

/-- These lines and nothing else are printed, and nothing fails. -/
structure Report.Prints (report : Report) (lines : List (List Char)) : Prop where
  lines : report.lines.map String.toList = lines
  notes : report.notes = []
  failure : report.failure = none

/-- The command has failed before it printed anything. -/
structure Report.Fails (report : Report) (failure : Failure) : Prop where
  lines : report.lines = []
  notes : report.notes = []
  failure : report.failure = some failure

namespace Report

variable {report : Report} {lines : List (List Char)} {failure : Failure}

theorem prints_nil : (printed []).Prints [] :=
  ⟨rfl, rfl, rfl⟩

theorem failed_fails (failure : Failure) : (failed failure).Fails failure :=
  ⟨rfl, rfl, rfl⟩

theorem Prints.andThen {next : Unit → Report} {lines' : List (List Char)}
    (h : report.Prints lines) (h' : (next ()).Prints lines') :
    (report.andThen next).Prints (lines ++ lines') := by
  unfold Report.andThen
  rw [h.failure]
  refine ⟨?_, ?_, h'.failure⟩
  · show (report.lines ++ (next ()).lines).map String.toList = lines ++ lines'
    rw [List.map_append, h.lines, h'.lines]
  · show report.notes ++ (next ()).notes = []
    rw [h.notes, h'.notes, List.nil_append]

theorem Fails.andThen (next : Unit → Report) (h : report.Fails failure) :
    (report.andThen next).Fails failure := by
  unfold Report.andThen
  rw [h.failure]
  exact h

/-- Each line that is printed has a line break behind it. -/
theorem Prints.outcome (h : report.Prints lines) :
    report.outcome = ⟨0, String.ofList (lines.flatMap (· ++ ['\n'])), ""⟩ := by
  have out : ofLines report.lines = String.ofList (lines.flatMap (· ++ ['\n'])) := by
    rw [← String.toList_inj, toList_ofLines, h.lines, String.toList_ofList]
  unfold Report.outcome
  rw [h.failure, h.notes, out]
  rfl

theorem Fails.outcome (h : report.Fails failure) :
    report.outcome = ⟨1, "", "Error: " ++ failure.message ++ "\n\n"⟩ := by
  have err : ofLines ["Error: " ++ failure.message, ""] =
      "Error: " ++ failure.message ++ "\n\n" := by
    rw [← String.toList_inj]
    simp [toList_ofLines]
  rw [← err]
  unfold Report.outcome
  rw [h.failure, h.notes, h.lines]
  rfl

end Report

/-! ### Ranges -/

/-- What is printed for one script of a child: the number of the child in six columns, the address
in 64, with a dash for a script that has none, and the script itself. -/
def row (network : Network) (index : Nat) (script : Script) : List Char :=
  let number := Nat.toDigits 10 index
  let address := ((Address.ofScript? network script).map Address.text).getD ['-']
  List.replicate (6 - number.length) ' ' ++ number ++ [' '] ++
    address ++ List.replicate (64 - address.length) ' ' ++ [' '] ++ Bytes.toHex script

section

variable [arithmetic : KeyArithmetic] {network : Network} {source : Option KeySource}
  {node : Descriptor}

/-- The rows of all children of a range, in order. -/
def rows (network : Network) (source : Option KeySource) (node : Descriptor)
    (first count : Nat) : List (List Char) :=
  (List.range' first count).flatMap fun index =>
    (node.scripts (some index) source).map (row network index)

theorem rows_eq_nil {first count : Nat}
    (h : ∀ index ∈ List.range' first count, node.scripts (some index) source = []) :
    rows network source node first count = [] := by
  refine List.flatMap_eq_nil_iff.mpr fun index hindex => ?_
  rw [h index hindex, List.map_nil]

theorem deriveOne_prints {index : Nat} (h : node.scripts (some index) source ≠ []) :
    (deriveOne network source node (some index)).Prints
      ((node.scripts (some index) source).map (row network index)) := by
  have address (script : Script) : ((addressText? network script).getD "-").toList =
      ((Address.ofScript? network script).map Address.text).getD ['-'] := by
    unfold addressText?
    cases Address.ofScript? network script <;> simp
  unfold deriveOne
  split
  · contradiction
  · refine ⟨?_, rfl, rfl⟩
    refine List.map_map.trans (List.map_congr_left fun script _ => ?_)
    show (padLeft 6 (toString index) ++ " " ++ padRight 64 ((addressText? network script).getD "-") ++
      " " ++ hexText script).toList = row network index script
    simp [row, toList_padLeft, toList_padRight, address, hexText, Nat.repr_eq_ofList_toDigits]

theorem deriveOne_fails {index : Option Nat} (h : node.scripts index source = []) :
    (deriveOne network source node index).Fails .unresolvable := by
  unfold deriveOne
  rw [h]
  exact Report.failed_fails _

/-- The range is gone through to its end if no child on the way lacks scripts. -/
theorem deriveRange_prints {count : Nat} :
    ∀ {first : Nat}, (∀ index ∈ List.range' first count, node.scripts (some index) source ≠ []) →
      (deriveRange network source node first count).Prints (rows network source node first count) := by
  induction count with
  | zero =>
    intro first _
    exact Report.prints_nil
  | succ count ih =>
    intro first h
    rw [List.range'_succ, List.forall_mem_cons] at h
    rw [rows, List.range'_succ, List.flatMap_cons]
    exact (deriveOne_prints h.1).andThen (ih h.2)

theorem deriveRange_fails {first count : Nat} (h : node.scripts (some first) source = []) :
    (deriveRange network source node first (count + 1)).Fails .unresolvable :=
  (deriveOne_fails h).andThen _

/-- Whether the first child of a range has scripts decides about all of them. -/
theorem deriveRange_all_or_nothing (network : Network) (source : Option KeySource)
    (total : arithmetic.NeverFails) (reachable : ∀ expr ∈ node.keys, expr.key.Reachable)
    {first count : Nat} (early : first + count ≤ 0x80000000) :
    ((∀ index ∈ List.range' first count, node.scripts (some index) source ≠ []) ∧
      (deriveRange network source node first count).Prints
        (rows network source node first count)) ∨
    (count ≠ 0 ∧ (∀ index ∈ List.range' first count, node.scripts (some index) source = []) ∧
      (deriveRange network source node first count).Fails .unresolvable) := by
  by_cases empty : count ≠ 0 ∧ node.scripts (some first) source = []
  · obtain ⟨nonempty, hfirst⟩ := empty
    obtain ⟨rest, rfl⟩ := Nat.exists_eq_succ_of_ne_zero nonempty
    refine .inr ⟨nonempty, fun index _ => ?_, deriveRange_fails hfirst⟩
    exact Descriptor.scripts_eq_nil_of_choice total reachable (.some (by omega)) hfirst
  · have scripts : ∀ index ∈ List.range' first count, node.scripts (some index) source ≠ [] := by
      intro index hindex h
      have bounds := List.mem_range'_1.mp hindex
      have hfirst : node.scripts (some first) source = [] :=
        Descriptor.scripts_eq_nil_of_choice total reachable (.some (by omega)) h
      exact empty ⟨by omega, hfirst⟩
    exact .inl ⟨scripts, deriveRange_prints scripts⟩

theorem execute_derive_ranged {text : List Char}
    (reads : Descriptor.parse (Whitespace.trim text) = .ok node) (ranged : node.isRanged = true)
    (network : Network) (keys : List Xprv) (first count : Nat) :
    execute ⟨network, keys, .derive text first count⟩ =
      if first + count ≤ 0x80000000 then
        deriveRange network (KeyRing.ofList keys).source? node first count
      else .failed (.rangeOverflow first count) := by
  simp [execute, withDescriptor, reads, derive, ranged]

/-- A range of children that ends too late is refused. Of any other range the command prints all, in
order, with one row for each script; or no child of it has a script, then nothing is printed. -/
theorem execute_derive_all_or_nothing (total : arithmetic.NeverFails) {text : List Char}
    (reads : Descriptor.parse (Whitespace.trim text) = .ok node) (ranged : node.isRanged = true)
    (network : Network) (keys : List Xprv) (first count : Nat) :
    let source := (KeyRing.ofList keys).source?
    let report := execute ⟨network, keys, .derive text first count⟩
    (0x80000000 < first + count →
      report.Fails (.rangeOverflow first count) ∧
      report.outcome =
        ⟨1, "", "Error: " ++ (Failure.rangeOverflow first count).message ++ "\n\n"⟩) ∧
    (first + count ≤ 0x80000000 →
      ((∀ index ∈ List.range' first count, node.scripts (some index) source ≠ []) ∧
        report.Prints (rows network source node first count) ∧
        report.outcome =
          ⟨0, String.ofList ((rows network source node first count).flatMap (· ++ ['\n'])), ""⟩) ∨
      (count ≠ 0 ∧ (∀ index ∈ List.range' first count, node.scripts (some index) source = []) ∧
        report.Fails .unresolvable ∧
        report.outcome = ⟨1, "", "Error: " ++ Failure.unresolvable.message ++ "\n\n"⟩)) ∧
    ∀ i j, i < 0x80000000 → j < 0x80000000 →
      (node.scripts (some i) source = [] ↔ node.scripts (some j) source = []) := by
  intro source report
  have reachable := Descriptor.reachable_of_parse reads
  have hreport : report = _ := execute_derive_ranged reads ranged network keys first count
  refine ⟨?_, ?_, ?_⟩
  · intro late
    rw [if_neg (Nat.not_le.mpr late)] at hreport
    have fails : report.Fails _ := hreport ▸ Report.failed_fails _
    exact ⟨fails, fails.outcome⟩
  · intro early
    rw [if_pos early] at hreport
    rw [hreport]
    obtain ⟨scripts, prints⟩ | ⟨nonempty, noScripts, fails⟩ :=
      deriveRange_all_or_nothing network source total reachable early
    · exact .inl ⟨scripts, prints, prints.outcome⟩
    · exact .inr ⟨nonempty, noScripts, fails, fails.outcome⟩
  · intro i j hi hj
    exact ⟨Descriptor.scripts_eq_nil_of_choice total reachable (.some hi),
      Descriptor.scripts_eq_nil_of_choice total reachable (.some hj)⟩

end

/-- A public root, of which the caller names a hardened child. -/
def hardenedSample : List Char :=
  ("wpkh(xpub661MyMwAqRbcFtXgS5sYJABqqG9YLmC4Q1Rdap9gSE8NqtwybGhePY2gZ29ESFjqJoCu1Rupje8YtGqsefD265TMg7usU" ++
    "DFdp6W1EGMcet8/*h)").toList

/-- With the private root in the ring the first two children are printed, and without it neither is.
There is no child behind the last one. -/
theorem execute_derive_hardenedSample :
    letI := Secp256k1.instKeyArithmetic.unfailing
    let root : Xprv := OneChain.atRoot OneChain.root
    let outcome (keys : List Xprv) (first count : Nat) : Outcome :=
      (execute ⟨.bitcoin, keys, .derive hardenedSample first count⟩).outcome
    let line := "     0 bc1qtsdavj8dyw49l4gt554jg47pr60gpf48ww2ens                       " ++
      "00145c1bd648ed23aa5fd50ba52b2457c11e9e80a6a7"
    let line' := "     1 bc1q2qe0ym5zd0t9c3ac7lgshyfhf5jqy4slh4qh8k                       " ++
      "00145032f26e826bd65c47b8f7d10b91374d2402561f"
    outcome [root] 0 2 = ⟨0, line ++ "\n" ++ line' ++ "\n", ""⟩ ∧
    outcome [] 0 2 = ⟨1, "",
      "Error: descriptor can't be compiled: some of its keys can't be resolved (a hardened " ++
        "derivation may require `--xpriv` option) or a witness output uses an uncompressed key.\n\n"⟩ ∧
    outcome [root] 2147483647 2 = ⟨1, "",
      "Error: child number range 2147483647..2147483647+2 exceeds the maximum unhardened index.\n\n"⟩ := by
  let := Secp256k1.instKeyArithmetic.unfailing
  intro root outcome line line'
  let path : Path := ⟨.unnamed, [⟨.wildcard, true⟩], by decide, by decide⟩
  let node : Descriptor :=
    .wpkh ⟨none, .extended (.xpub (OneChain.atRoot OneChain.rootPoint)) path⟩
  have runs : (Descriptor.parse (Whitespace.trim hardenedSample)).toOption.map id = some node := by
    decide +kernel
  obtain ⟨_, reads, rfl⟩ := exists_ok_of_toOption_map runs
  have criterion := execute_derive_all_or_nothing
    Secp256k1.instKeyArithmetic.unfailing_neverFails reads rfl .bitcoin
  have shown : rows .bitcoin (KeyRing.ofList [root]).source? node 0 2 =
      [line.toList, line'.toList] := by decide +kernel
  have hidden : node.scripts (some 0) (KeyRing.ofList []).source? = [] := by decide +kernel
  refine ⟨?_, ?_, ?_⟩
  · obtain ⟨_, _, h⟩ | ⟨_, noScripts, _⟩ := (criterion [root] 0 2).2.1 (by decide)
    · have out : String.ofList ([line.toList, line'.toList].flatMap (· ++ ['\n'])) =
          line ++ "\n" ++ line' ++ "\n" := by
        rw [← String.toList_inj]
        simp
      rw [shown, out] at h
      exact h
    · exact absurd (shown.symm.trans (rows_eq_nil noScripts)) (List.cons_ne_nil _ _)
  · obtain ⟨scripts, _⟩ | ⟨_, _, _, h⟩ := (criterion [] 0 2).2.1 (by decide)
    · exact absurd hidden (scripts 0 (by simp))
    · exact h.trans (by decide +kernel)
  · obtain ⟨_, h⟩ := (criterion [root] 2147483647 2).1 (by decide)
    exact h.trans (by decide +kernel)

end OutputDescriptor.CommandLine
