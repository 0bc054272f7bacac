import LibSwitch.Handlers

namespace LibSwitch.StubLibraries

open LibSwitch.Common LibSwitch.ModuleLoad LibSwitch.Handlers

variable {D : Type}

inductive StubDev
  | asicBrDev
  | flowStubFlwDev
  deriving DecidableEq

/-- Both stub switches fill in the type `ASIC`. -/
def asicSw : Sw StubDev :=
  ⟨0, fun protoId => if protoId = protocolBridge then some .asicBrDev else none⟩

def flowStubSw : Sw StubDev :=
  ⟨0, fun protoId => if protoId = protocolFlow then some .flowStubFlwDev else none⟩

def libBridge : Lib Handler D := ⟨some (.protocol bridge)⟩

def libFlow : Lib Handler D := ⟨some (.protocol flow)⟩

def libAsic : Lib Handler StubDev := ⟨some (.sw asicSw)⟩

def libFlowStub : Lib Handler StubDev := ⟨some (.sw flowStubSw)⟩

def libSockComm : Lib Handler D := ⟨some (.comm ⟨"SOCK", 0⟩)⟩

def libCliComm : Lib Handler D := ⟨some (.cli ⟨"CLI", 0⟩)⟩

/-- The libraries of the repository, with one that fails to open and a plain file. -/
def stubDir : List (DirEnt Handler StubDev) :=
  [⟨"lib_flow_stub.so".toList, some libFlowStub⟩, ⟨"lib_broken.so".toList, none⟩,
   ⟨"lib_flow.so".toList, some libFlow⟩, ⟨"README.md".toList, none⟩,
   ⟨"lib_asic.so".toList, some libAsic⟩, ⟨"lib_bridge.so".toList, some libBridge⟩,
   ⟨"lib_sock_comm.so".toList, some libSockComm⟩, ⟨"lib_cli_comm.so".toList, some libCliComm⟩]

def stubDirBridgeFirst : List (DirEnt Handler StubDev) :=
  [⟨"lib_bridge.so".toList, some libBridge⟩, ⟨"lib_flow.so".toList, some libFlow⟩,
   ⟨"lib_flow_stub.so".toList, some libFlowStub⟩, ⟨"lib_asic.so".toList, some libAsic⟩]

def bareDir : List (DirEnt Handler StubDev) :=
  [⟨"lib_sock_comm.so".toList, some libSockComm⟩, ⟨"lib_asic.so".toList, some libAsic⟩]

end LibSwitch.StubLibraries
