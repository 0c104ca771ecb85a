import ProxyNode.Spec.McpTools

/-! The tools that are listed for a caller and the tools it may call. A list is the catalogue of
the participant, filtered by the surface's rule unless the grant is full; a call asks the rule
only. -/

namespace ProxyNode.Mcp

variable {V : Type}

def Offered (surface : McpToolSurface V) (pid : Option Text) (name : Text) : Prop :=
  name ∈ (surface.toolsForParticipant pid).map ToolDefinition.name
deriving Decidable

def listedNames (state : McpServerState V) (pid : Option Text) (grant : ToolGrant) : List Text :=
  match (handleToolsList state none pid grant).body with
  | .tools tools => tools.map ToolDefinition.name
  | _ => []

theorem mem_listedNames {state : McpServerState V} {pid : Option Text} {grant : ToolGrant} {name : Text} :
    name ∈ listedNames state pid grant ↔ Offered state.surface pid name ∧
      (grant ≠ .full → state.surface.participantMayCall pid grant name = true) := by
  unfold listedNames handleToolsList listedTools Offered
  by_cases hfull : grant = .full
  · simp [hfull]
  · simp only [ne_eq, hfull, not_false_eq_true, if_true, forall_const, List.mem_map, List.mem_filter]
    constructor
    · rintro ⟨tool, ⟨hmem, hmay⟩, rfl⟩
      exact ⟨⟨tool, hmem, rfl⟩, hmay⟩
    · rintro ⟨⟨tool, hmem, rfl⟩, hmay⟩
      exact ⟨tool, ⟨hmem, hmay⟩, rfl⟩

section Calls

variable {payloads : Payloads V} {state : McpServerState V} {req : JsonRpcRequest V} {params : V} {name : Text}
  {arguments : Option V} (hparams : req.params = some params)
  (hcall : payloads.toolCallRequest params = .ok (name, arguments)) (agentId pid : Option Text)
  (grant : ToolGrant) (caller : ToolCaller) (sessionId : Option Text)

include hparams hcall

/-- A call is handed to the surface exactly if the surface's rule allows it. -/
theorem dispatched_iff :
    (handleToolsCall payloads state req agentId pid grant caller
        sessionId).dispatched.isSome = true ↔
      state.surface.participantMayCall pid grant name = true := by
  unfold handleToolsCall
  rw [hparams]
  dsimp only
  rw [hcall]
  dsimp only
  by_cases hmay : state.surface.participantMayCall pid grant name = true
  · rw [if_neg (by rw [hmay]; decide)]
    exact ⟨fun _ => hmay, fun _ => rfl⟩
  · rw [if_pos (by rw [Bool.eq_false_iff.2 hmay]; decide)]
    exact ⟨nofun, fun h => absurd h hmay⟩

/-- What is listed may be called, and the other way round, exactly where the rule allows nothing
outside the catalogue and, under the full grant, all of it. -/
theorem dispatched_iff_listed :
    ((handleToolsCall payloads state req agentId pid grant caller
          sessionId).dispatched.isSome = true ↔
        name ∈ listedNames state pid grant) ↔
      (state.surface.participantMayCall pid grant name = true →
          Offered state.surface pid name) ∧
        (grant = .full → Offered state.surface pid name →
          state.surface.participantMayCall pid grant name = true) := by
  rw [dispatched_iff hparams hcall, mem_listedNames]
  by_cases hfull : grant = .full
  · simp only [hfull, ne_eq, not_true_eq_false, IsEmpty.forall_iff, and_true, forall_const]
    exact ⟨fun h => ⟨h.1, h.2⟩, fun h => ⟨h.1, h.2⟩⟩
  · simp only [ne_eq, hfull, not_false_eq_true, forall_const, IsEmpty.forall_iff, and_true]
    exact ⟨fun h hmay => (h.1 hmay).1, fun h => ⟨fun hmay => ⟨h hmay, hmay⟩, fun hboth => hboth.2⟩⟩

end Calls

/-! ## A catalogue for guests -/

def namedCalls : Payloads Text := ⟨fun params => .ok (params, none), fun _ => none⟩

def namedTool (name : Text) : ToolDefinition Text := ⟨name, none, [], [], [], none⟩

def guestSurface : McpToolSurface Text where
  allTools := [namedTool "search".toList, namedTool "erase".toList]
  toolsForParticipant := fun pid =>
    if pid = some "guest".toList then [namedTool "search".toList]
    else [namedTool "search".toList, namedTool "erase".toList]
  handleToolCall := fun _ _ _ => .errorText []

def guestState : McpServerState Text := ⟨guestSurface, id, ∅⟩

def guestCall (name : Text) (grant : ToolGrant) : CallOutcome Text :=
  handleToolsCall namedCalls guestState ⟨none, some name⟩ none (some "guest".toList) grant .agent none

def guestList (grant : ToolGrant) : List Text := listedNames guestState (some "guest".toList) grant

/-- The tool that is kept from the guest's list is called all the same, with a seat and in full. -/
theorem unlisted_tool_dispatched :
    ((guestCall "erase".toList .seat).dispatched.isSome = true ∧ "erase".toList ∉ guestList .seat) ∧
      (guestCall "erase".toList .full).dispatched.isSome = true ∧ "erase".toList ∉ guestList .full := by
  decide

theorem listed_tool_dispatched :
    (guestCall "search".toList .seat).dispatched.isSome = true ↔ "search".toList ∈ guestList .seat :=
  (dispatched_iff_listed rfl rfl none (some "guest".toList) .seat .agent none).2 ⟨fun _ => by decide, nofun⟩

end ProxyNode.Mcp
