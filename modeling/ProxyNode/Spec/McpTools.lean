import ProxyNode.Spec.AskProof

/-! The tool server of a node: the grant a caller holds, the tools that are listed for it, and
the calls that are handed to the tool surface. JSON values are a type `V`; what is read from
them is given by `Payloads`. -/

namespace ProxyNode.Mcp

open OAuth

/-! ## Grants -/

inductive ToolGrant
  | nothing
  | seat
  | writer
  | full
deriving DecidableEq, Repr

namespace ToolGrant

def rank : ToolGrant → ℕ
  | nothing => 0
  | seat => 1
  | writer => 2
  | full => 3

theorem rank_injective : Function.Injective rank := by
  intro a b h
  cases a <;> cases b <;> first | rfl | cases h

instance : LinearOrder ToolGrant := LinearOrder.lift' rank rank_injective

def narrowedTo (grant other : ToolGrant) : ToolGrant := min grant other

/-- Narrowing leaves nothing only where nothing was granted. -/
theorem narrowedTo_eq_nothing {grant other : ToolGrant} :
    grant.narrowedTo other = nothing ↔ grant = nothing ∨ other = nothing := by
  cases grant <;> cases other <;> decide

end ToolGrant

inductive TunnelPrincipal
  | account
  | oauth (scope : Option Text)
deriving DecidableEq

def harnessToolPolicySeat : Text := "seat".toList

def harnessToolPolicyWriter : Text := "writer".toList

def partyJoinTool : Text := "party_join".toList

def tunnelGrant : Option TunnelPrincipal → ToolGrant
  | none => .full
  | some .account => .full
  | some (.oauth (some scope)) => if (PartyScope.parse scope).isSome then .nothing else .seat
  | some (.oauth none) => .seat

def requestedGrant (requestedPolicy : Option Text) : ToolGrant :=
  if requestedPolicy = some harnessToolPolicySeat then .seat
  else if requestedPolicy = some harnessToolPolicyWriter then .writer
  else .full

def combinedGrant (tunnel participant requested : ToolGrant) : ToolGrant :=
  (tunnel.narrowedTo participant).narrowedTo requested

theorem requestedGrant_ne_nothing (policy : Option Text) : requestedGrant policy ≠ .nothing := by
  unfold requestedGrant
  split_ifs <;> decide

theorem combinedGrant_eq_nothing {tunnel participant : ToolGrant} {policy : Option Text} :
    combinedGrant tunnel participant (requestedGrant policy) = .nothing ↔
      tunnel = .nothing ∨ participant = .nothing := by
  rw [combinedGrant, ToolGrant.narrowedTo_eq_nothing, ToolGrant.narrowedTo_eq_nothing]
  exact or_iff_left (requestedGrant_ne_nothing policy)

/-! ## Tools and calls -/

structure ToolDefinition (V : Type) where
  name : Text
  title : Option Text
  description : Text
  annotations : V
  inputSchema : V
  outputSchema : Option V

inductive ToolCaller
  | owner
  | agent
  | address (ownerProven : Bool)
deriving DecidableEq

structure ToolCallRequest (V : Type) where
  name : Text
  arguments : Option V
  caller : ToolCaller

inductive ToolContent (V : Type)
  | text (text : Text)
  | image (data mimeType : Text)
  | resource (resource : V)

structure ToolCallResult (V : Type) where
  content : List (ToolContent V)
  structuredContent : Option V
  isError : Option Bool

def ToolCallResult.errorText {V : Type} (message : Text) : ToolCallResult V := ⟨[.text message], none, some true⟩

/-- A tool surface; a hook that is left out has the body written here. The lookup of a
participant's grant runs on a thread of its own and is `none` where that thread fails. -/
structure McpToolSurface (V : Type) where
  allTools : List (ToolDefinition V)
  toolsForParticipant : Option Text → List (ToolDefinition V) := fun _ => allTools
  harnessSeatMayCall : Text → Bool := fun _ => true
  mapWriterMayCall : Text → Bool := harnessSeatMayCall
  participantGrant : Text → Option ToolGrant := fun _ => some .full
  grantAllows : ToolGrant → Text → Bool := fun grant toolName => match grant with
    | .full => true
    | .writer => mapWriterMayCall toolName
    | .seat => harnessSeatMayCall toolName
    | .nothing => false
  participantMayCall : Option Text → ToolGrant → Text → Bool := fun _ grant toolName => grantAllows grant toolName
  handleToolCall : ToolCallRequest V → Option Text → Option Text → ToolCallResult V

def callerGrant {V : Type} (surface : McpToolSurface V) (tunnelPrincipal : Option TunnelPrincipal)
    (participantId requestedPolicy : Option Text) : ToolGrant :=
  let participant := match participantId with
    | some participantId => (surface.participantGrant participantId).getD .seat
    | none => .full
  combinedGrant (tunnelGrant tunnelPrincipal) participant (requestedGrant requestedPolicy)

/-! ## Requests -/

/-- What the server reads out of JSON values: the name and arguments of a call, or why they are
refused, and the `participant_id` of a result. -/
structure Payloads (V : Type) where
  toolCallRequest : V → Except Text (Text × Option V)
  participantId : V → Option Text

structure JsonRpcRequest (V : Type) where
  id : Option V
  params : Option V

inductive RpcBody (V : Type)
  | tools (tools : List (ToolDefinition V))
  | toolResult (result : ToolCallResult V)
  | error (code : ℤ) (message : Text)

structure JsonRpcResponse (V : Type) where
  id : Option V
  body : RpcBody V

structure McpServerState (V : Type) where
  surface : McpToolSurface V
  sanitizeError : Text → Text
  sessionParticipants : SortedMap Text Text

variable {V : Type}

def listedTools (surface : McpToolSurface V) (participantId : Option Text) (grant : ToolGrant) :
    List (ToolDefinition V) :=
  let tools := surface.toolsForParticipant participantId
  if grant ≠ .full then tools.filter fun tool => surface.participantMayCall participantId grant tool.name
  else tools

def handleToolsList (state : McpServerState V) (id : Option V) (participantId : Option Text) (grant : ToolGrant) :
    JsonRpcResponse V :=
  ⟨id, .tools (listedTools state.surface participantId grant)⟩

structure Dispatch (V : Type) where
  call : ToolCallRequest V
  agentId : Option Text
  participantId : Option Text

/-- What a call comes to: the response, the call the surface was given, if any, and the state. -/
structure CallOutcome (V : Type) where
  response : JsonRpcResponse V
  dispatched : Option (Dispatch V)
  state : McpServerState V

def refusal (name : Text) : Text :=
  name ++ " is not open to this connection. Only the tools in tools/list are.".toList

/-- The session a `party_join` is made in speaks for the participant it joined as. -/
def joinedSession (payloads : Payloads V) (state : McpServerState V) (name : Text) (sessionId : Option Text)
    (result : ToolCallResult V) : McpServerState V :=
  if name = partyJoinTool ∧ result.isError ≠ some true then
    match sessionId, result.structuredContent.bind payloads.participantId with
    | some session, some joined =>
      { state with sessionParticipants := state.sessionParticipants.insert session joined }
    | _, _ => state
  else state

def handleToolsCall (payloads : Payloads V) (state : McpServerState V) (request : JsonRpcRequest V)
    (agentId participantId : Option Text) (grant : ToolGrant) (caller : ToolCaller) (sessionId : Option Text) :
    CallOutcome V :=
  match request.params with
  | none => ⟨⟨request.id, .error (-32602) "Missing params".toList⟩, none, state⟩
  | some params =>
    match payloads.toolCallRequest params with
    | .error why => ⟨⟨request.id, .error (-32602) ("Invalid params: ".toList ++ why)⟩, none, state⟩
    | .ok (name, arguments) =>
      let caller :=
        if caller = .agent ∧ state.surface.participantMayCall participantId grant "proxy_make_move".toList
        then .owner else caller
      let call : ToolCallRequest V := ⟨name, arguments, caller⟩
      if !state.surface.participantMayCall participantId grant name then
        ⟨⟨request.id, .toolResult (.errorText (state.sanitizeError (refusal name)))⟩, none, state⟩
      else
        let result := state.surface.handleToolCall call agentId participantId
        ⟨⟨request.id, .toolResult result⟩, some ⟨call, agentId, participantId⟩,
          joinedSession payloads state name sessionId result⟩

end ProxyNode.Mcp
