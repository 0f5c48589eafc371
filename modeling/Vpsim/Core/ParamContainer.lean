import Vpsim.Lib.Coverage
import Vpsim.Core.AddrSpace

/-!
# Parameter containers

A `paramContainer` is a vector of address ranges with parameter values. This module holds the
algorithms of `parameterSet.cpp` that rebuild such a vector piece by piece, for any type of
parameter values: `setParameterHelper`, `defrag`, the traversal-rate cut of
`addExportedParam` and the body of `trim`.
-/

namespace Vpsim.Core

open Vpsim.Lib

/-- `paramContainer`. -/
abbrev ParamContainer (V : Type) := List (AddrSpace × V)

namespace ParamContainer

variable {V W : Type}

/-- `std::sort` on a container: the pairs are ordered by their address range. -/
def sort (pc : ParamContainer V) : ParamContainer V :=
  pc.insertionSort fun p q => ¬ q.1.lt p.1

/-- `ParameterSet::setParameterHelper`, with a bound on the depth of its recursion. The first
entry that meets `as` is removed, then the part of `as` outside it, the common part and the
rest of the old entry are set again, one after the other. -/
def setParameterRec (pick : V → V → V) : ℕ → ParamContainer V → AddrSpace → V → ParamContainer V
  | 0, pc, _, _ => pc
  | fuel + 1, pc, as, param =>
    match pc.find? fun p => p.1.intersect as with
    | none => sort (pc ++ [(as, param)])
    | some (curAs, curParam) =>
      let erased := pc.eraseP fun p => p.1.intersect as
      let added := (as.relativeComplement curAs).foldl
        (fun pc nas => setParameterRec pick fuel pc nas param) erased
      let picked := setParameterRec pick fuel added (curAs.intersection as) (pick curParam param)
      (curAs.relativeComplement as).foldl
        (fun pc oas => setParameterRec pick fuel pc oas curParam) picked

/-- Number of addresses held by the ranges, counted once for each range. -/
def weight (pc : ParamContainer V) : ℕ := (pc.map fun p => p.1.size).sum

/-- `ParameterSet::setParameterHelper`. -/
def setParameterHelper (pick : V → V → V) (pc : ParamContainer V) (as : AddrSpace) (param : V) :
    ParamContainer V :=
  setParameterRec pick (pc.weight + as.size + 1) pc as param

/-- One pass of the loop of `defrag`: the first two neighbours that can be merged are merged.
The end address is incremented as a 64-bit number. -/
def defragOnce [DecidableEq V] : ParamContainer V → Option (ParamContainer V)
  | (as1, p1) :: (as2, p2) :: rest =>
    if (as1.endAddress + 1) % AddrSpace.addrCount = as2.baseAddress ∧ p1 = p2 then
      some ((⟨as1.baseAddress, as2.endAddress⟩, p1) :: rest)
    else (defragOnce ((as2, p2) :: rest)).map ((as1, p1) :: ·)
  | _ => none

theorem defragOnce_length [DecidableEq V] {pc pc' : ParamContainer V}
    (h : defragOnce pc = some pc') : pc'.length + 1 = pc.length := by
  fun_induction defragOnce pc generalizing pc' with
  | case1 as1 p1 as2 p2 rest hmerge =>
    obtain rfl := Option.some.inj h
    simp
  | case2 as1 p1 as2 p2 rest hmerge ih =>
    obtain ⟨tail, htail, rfl⟩ := Option.map_eq_some_iff.mp h
    simpa using ih htail
  | case3 => cases h

/-- `ParameterSet::defrag`: passes are repeated until no neighbours can be merged. -/
def defrag [DecidableEq V] (pc : ParamContainer V) : ParamContainer V :=
  match _h : defragOnce pc with
  | none => pc
  | some pc' => defrag pc'
termination_by pc.length
decreasing_by
  have := defragOnce_length _h
  omega

/-- The merge helper shared by `mergeImportedParam` and `addExportedParam`: every entry of
`source` is set in `target`, which is then defragmented. -/
def absorb [DecidableEq V] (pick : V → V → V) (source target : ParamContainer V) : ParamContainer V :=
  defrag (source.foldl (fun pc p => setParameterHelper pick pc p.1 p.2) target)

/-- `newDelaysHelper` of `addExportedParam`, with a bound on the depth of its recursion: the
delay of `as` is scaled on its part inside the first traversal rate that meets it, and the
other parts are treated the same way. -/
def newDelaysRec (scale : V → W → V) (trRates : ParamContainer W) :
    ℕ → AddrSpace → V → ParamContainer V
  | 0, as, delay => [(as, delay)]
  | fuel + 1, as, delay =>
    match trRates.find? fun p => as.intersect p.1 with
    | none => [(as, delay)]
    | some (trAs, tr) =>
      (as.intersection trAs, scale delay tr) ::
        (as.relativeComplement trAs).flatMap fun oas => newDelaysRec scale trRates fuel oas delay

/-- The delays of a container with the traversal rates taken into account. -/
def newDelays [DecidableEq V] (scale : V → W → V) (trRates : ParamContainer W)
    (delays : ParamContainer V) : ParamContainer V :=
  defrag (sort (delays.flatMap fun d => newDelaysRec scale trRates (trRates.length + 1) d.1 d.2))

/-- The inner loop of `trim` for one entry: it runs over the restriction in order and stops at
the first member that starts after the entry. -/
def trimEntry (p : AddrSpace × V) : List AddrSpace → ParamContainer V
  | [] => []
  | as :: restriction =>
    if p.1.intersect as then (p.1.intersection as, p.2) :: trimEntry p restriction
    else if as.baseAddress > p.1.endAddress then []
    else trimEntry p restriction

/-- The body of `ParameterSet::trim` for one container. -/
def trim [DecidableEq V] (restriction : List AddrSpace) (pc : ParamContainer V) : ParamContainer V :=
  defrag (sort (pc.flatMap fun p => trimEntry p restriction))

end ParamContainer

end Vpsim.Core
