import LibSwitch.DeviceLinking
import LibSwitch.ExitHandler

namespace LibSwitch.RepositoryHalts

open LibSwitch.PointerTable LibSwitch.CText LibSwitch.Common LibSwitch.ModuleLoad
open LibSwitch.LoadedModules LibSwitch.Handlers LibSwitch.StubLibraries
open LibSwitch.DeviceLinking LibSwitch.ExitHandler

variable {H D : Type}

inductive RepoLib
  | sockComm
  | cliComm
  | bridge
  | flow
  | asic
  | flowStub
  deriving DecidableEq

def fileName : RepoLib → CString
  | .sockComm => "lib_sock_comm.so".toList
  | .cliComm => "lib_cli_comm.so".toList
  | .bridge => "lib_bridge.so".toList
  | .flow => "lib_flow.so".toList
  | .asic => "lib_asic.so".toList
  | .flowStub => "lib_flow_stub.so".toList

def lib : RepoLib → Lib Handler StubDev
  | .sockComm => libSockComm
  | .cliComm => libCliComm
  | .bridge => libBridge
  | .flow => libFlow
  | .asic => libAsic
  | .flowStub => libFlowStub

def kind : RepoLib → Kind
  | .sockComm => .comm
  | .cliComm => .cli
  | .bridge | .flow => .protocol
  | .asic | .flowStub => .sw

/-- Whether the `init` of a library fills in the `halt` member of its module. -/
def setsHalt : RepoLib → Bool
  | .flowStub => false
  | _ => true

def dirOf (libs : List RepoLib) : List (DirEnt Handler StubDev) :=
  libs.map fun l => ⟨fileName l, some (lib l)⟩

def ofKind (libs : List RepoLib) (k : Kind) : List RepoLib := libs.filter fun l => kind l = k

/-- The main application registers last, as a protocol that has a halt function. -/
def repoHalts (libs : List RepoLib) : Halts := fun k i =>
  match (ofKind libs k)[i]? with
  | some l => setsHalt l
  | none => true

theorem opened_dirOf (libs : List RepoLib) : opened (dirOf libs) = libs.map lib := by
  induction libs with
  | nil => rfl
  | cons l libs ih =>
    have hso : soName (fileName l) = true := by cases l <;> rfl
    rw [dirOf, List.map_cons, opened, List.filterMap_cons, hso, if_pos rfl]
    exact congrArg (List.cons (lib l)) ih

theorem length_filterMap_dirOf {α : Type} {f : Module Handler StubDev → Option α} {k : Kind}
    (hf : ∀ l, ((lib l).init.bind f).isSome = true ↔ kind l = k) (libs : List RepoLib) :
    ((modules (dirOf libs)).filterMap f).length = (ofKind libs k).length := by
  rw [modules, opened_dirOf, List.filterMap_filterMap, List.filterMap_map,
    List.length_filterMap_eq_countP, ofKind, ← List.countP_eq_length_filter]
  apply List.countP_congr
  intro l _
  rw [decide_eq_true_iff]
  exact hf l

theorem load_dirOf {libs : List RepoLib} (h : libs.length < maxObjects) :
    ∃ r, load appFuncs (dirOf libs) = some r ∧ Listed r ∧
      ∀ k, count r k = (ofKind libs k).length + if k = .protocol then 1 else 0 := by
  have hso : ((dirOf libs).filter fun e => soName e.name).length < maxObjects := by
    refine Nat.lt_of_le_of_lt (List.length_filter_le _ _) ?_
    rwa [dirOf, List.length_map]
  obtain ⟨r, hr, hl⟩ := load_linked appFuncs (dirOf libs)
    (fitsHandles_of_length (Nat.le_of_lt hso)) (protosOf_length_lt hso)
  have hcomms : (commsOf (modules (dirOf libs))).length = (ofKind libs .comm).length :=
    length_filterMap_dirOf (by intro l; cases l <;> decide) libs
  have hclis : (clisOf (modules (dirOf libs))).length = (ofKind libs .cli).length :=
    length_filterMap_dirOf (by intro l; cases l <;> decide) libs
  have hsws : (swsOf (modules (dirOf libs))).length = (ofKind libs .sw).length :=
    length_filterMap_dirOf (by intro l; cases l <;> decide) libs
  have hprotos : (protosOf (modules (dirOf libs))).length = (ofKind libs .protocol).length :=
    length_filterMap_dirOf (by intro l; cases l <;> decide) libs
  have hle (k : Kind) : (ofKind libs k).length < maxObjects :=
    Nat.lt_of_le_of_lt (List.length_filter_le _ _) h
  refine ⟨r, hr, ⟨⟨_, hl.comms, ?_⟩, ⟨_, hl.clis, ?_⟩, ⟨_, hl.switches, ?_⟩,
    ⟨_, hl.protocols, ?_⟩⟩, ?_⟩
  · rw [hcomms]
    exact Nat.le_of_lt (hle .comm)
  · rw [hclis]
    exact Nat.le_of_lt (hle .cli)
  · rw [hsws]
    exact Nat.le_of_lt (hle .sw)
  · rw [List.length_append, hprotos, List.length_singleton]
    exact hle .protocol
  · intro k
    cases k with
    | comm => exact hl.comms.cnt_eq.trans hcomms
    | cli => exact hl.clis.cnt_eq.trans hclis
    | sw => exact hl.switches.cnt_eq.trans hsws
    | protocol =>
      rw [count, hl.protocols.cnt_eq, List.length_append, hprotos]
      rfl

theorem repoHalts_set {libs : List RepoLib} {k : Kind} (h : ∀ l ∈ ofKind libs k, setsHalt l = true)
    (i : Nat) : repoHalts libs k i = true := by
  rw [repoHalts]
  split
  · next l hl => exact h l (List.mem_of_getElem? hl)
  · rfl

theorem mem_ofKind {libs : List RepoLib} {l : RepoLib} :
    l ∈ ofKind libs (kind l) ↔ l ∈ libs := by
  simp [ofKind]

theorem setsHalt_iff (l : RepoLib) : setsHalt l = true ↔ l ≠ .flowStub := by
  cases l <;> decide

theorem allSet_of_ne {libs : List RepoLib} {r : Registry H D} {k : Kind} (hk : k ≠ .sw) :
    AllSet r (repoHalts libs) k := by
  intro i _
  apply repoHalts_set
  intro l hl
  rw [setsHalt_iff]
  rintro rfl
  have hkind := (List.mem_filter.mp hl).2
  exact hk (of_decide_eq_true hkind).symm

theorem allSet_sw {libs : List RepoLib} {r : Registry H D}
    (hc : count r .sw = (ofKind libs .sw).length) :
    AllSet r (repoHalts libs) .sw ↔ .flowStub ∉ libs := by
  constructor
  · intro h hmem
    obtain ⟨i, hi⟩ := List.getElem?_of_mem (mem_ofKind.mpr hmem)
    have hlt := (List.getElem?_eq_some_iff.mp hi).1
    have hset := h i (by rw [hc]; exact hlt)
    rw [repoHalts, show ofKind libs .sw = ofKind libs (kind .flowStub) from rfl, hi] at hset
    cases hset
  · intro hno i _
    apply repoHalts_set
    intro l hl
    rw [setsHalt_iff]
    rintro rfl
    exact hno (mem_ofKind.mp hl)

/-- Among the libraries of the repository, it takes a CLI and the stub of the flow switch for a
null halt function to be called. -/
theorem noNullHalt_repo {libs : List RepoLib} {r : Registry H D} (hr : Listed r)
    (hc : ∀ k, count r k = (ofKind libs k).length + if k = .protocol then 1 else 0) :
    NoNullHalt r (repoHalts libs) ↔ ¬ (.cliComm ∈ libs ∧ .flowStub ∈ libs) := by
  have hcomm : AllSet r (repoHalts libs) .comm := allSet_of_ne (by decide)
  have hsw : AllSet r (repoHalts libs) .sw ↔ .flowStub ∉ libs := allSet_sw (hc .sw)
  have hcli : 0 < count r .cli ↔ .cliComm ∈ libs := by
    rw [hc .cli, ← mem_ofKind]
    constructor
    · intro hpos
      obtain ⟨l, hl⟩ := List.exists_mem_of_length_pos hpos
      have hkind : kind l = .cli := of_decide_eq_true (List.mem_filter.mp hl).2
      cases l <;> first | exact hl | cases hkind
    · exact List.length_pos_of_mem
  constructor
  · rintro h ⟨hmem, hstub⟩
    exact nullHalt_sw hr hcomm (hcli.mpr hmem) (fun hset => hsw.mp hset hstub) h
  · intro hno
    obtain hz | hpos := Nat.eq_zero_or_pos (count r .cli)
    · exact noNullHalt_bare hr hcomm hz
    · apply noNullHalt_set hr
      intro k
      by_cases hk : k = .sw
      · rw [hk]
        exact hsw.mpr fun hstub => hno ⟨hcli.mp hpos, hstub⟩
      · exact allSet_of_ne hk

/-- The first run of the handler shuts everything down when every halt pointer is set and there
is exactly one CLI module, or none and nothing behind it. It calls a null pointer when the
repository's CLI and flow stub are loaded together. -/
theorem exitHandler_shutsDown_iff :
    (∀ (r : Registry H D) (halts : Halts), Listed r →
      (ShutsDown r halts ↔ (∀ k, AllSet r halts k) ∧
        (count r .cli = 1 ∨
          count r .cli = 0 ∧ count r .sw = 0 ∧ count r .protocol = 0))) ∧
    ∀ libs : List RepoLib, libs.length < maxObjects →
      ∃ r, load appFuncs (dirOf libs) = some r ∧
        (NoNullHalt r (repoHalts libs) ↔ ¬ (.cliComm ∈ libs ∧ .flowStub ∈ libs)) := by
  refine ⟨fun r halts hr => shutsDown_iff hr, fun libs hlibs => ?_⟩
  obtain ⟨r, hload, hlisted, hcount⟩ := load_dirOf hlibs
  exact ⟨r, hload, noNullHalt_repo hlisted hcount⟩

def allLibs : List RepoLib := [.sockComm, .cliComm, .bridge, .flow, .asic, .flowStub]

def noCli : List RepoLib := [.sockComm, .bridge, .asic]

theorem allLibs_not_shutDown :
    (∃ r, load appFuncs (dirOf allLibs) = some r ∧ Listed r ∧
      ¬ NoNullHalt r (repoHalts allLibs) ∧ ¬ ShutsDown r (repoHalts allLibs)) ∧
    ∃ r, load appFuncs (dirOf noCli) = some r ∧ Listed r ∧ ¬ ShutsDown r (repoHalts noCli) := by
  constructor
  · obtain ⟨r, hload, hlisted, hcount⟩ := load_dirOf (show allLibs.length < 256 by decide)
    refine ⟨r, hload, hlisted, fun h => ?_, fun h => ?_⟩
    · exact (noNullHalt_repo hlisted hcount).mp h ⟨by decide, by decide⟩
    · exact (allSet_sw (hcount .sw)).mp (((shutsDown_iff hlisted).mp h).1 .sw) (by decide)
  · obtain ⟨r, hload, hlisted, hcount⟩ := load_dirOf (show noCli.length < 256 by decide)
    refine ⟨r, hload, hlisted, fun h => ?_⟩
    have hcli : count r .cli = 0 := hcount .cli
    have hsw : count r .sw = 1 := hcount .sw
    have hone := ((shutsDown_iff hlisted).mp h).2
    omega

theorem oneCli_shutsDown : ∃ r, load appFuncs (dirOf [.cliComm, .asic]) = some r ∧
    ShutsDown r (repoHalts [.cliComm, .asic]) ∧ NoNullHalt r (repoHalts [.cliComm, .asic]) := by
  obtain ⟨hshuts, hnull⟩ := exitHandler_shutsDown_iff (H := Handler) (D := StubDev)
  obtain ⟨r, hload, hrepo⟩ := hnull [.cliComm, .asic] (by decide)
  obtain ⟨r', hload', hlisted, hcount⟩ :=
    load_dirOf (show [RepoLib.cliComm, .asic].length < 256 by decide)
  cases hload.symm.trans hload'
  refine ⟨r, hload, (hshuts r _ hlisted).mpr ⟨?_, Or.inl (hcount .cli)⟩, hrepo.mpr (by decide)⟩
  intro k
  by_cases hk : k = .sw
  · rw [hk]
    exact (allSet_sw (hcount .sw)).mpr (by decide)
  · exact allSet_of_ne hk

end LibSwitch.RepositoryHalts
