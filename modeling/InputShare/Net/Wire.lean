import InputShare.Core.Model

/-! Input events, and what goes over the wire after the handshake. -/
namespace InputShare

inductive MouseButton where
  | left | right | middle | x1 | x2
deriving DecidableEq, Repr

/-- One input event, in a form that means the same thing on every machine. -/
inductive InputEvent where
  | mouseMove (dx dy : Int)
  /-- The cursor has just crossed onto the receiving machine, at this point of its screens. -/
  | cursorEnter (x y : Int)
  | mouseButton (button : MouseButton) (down : Bool)
  | wheel (delta : Int) (horizontal : Bool)
  | key (vk scan : ℕ) (down extended : Bool)
deriving DecidableEq, Repr

/-- Events that act where they happen: everything but motion and the handoff. -/
def InputEvent.discrete : InputEvent → Bool
  | .mouseButton .. | .wheel .. | .key .. => true
  | .mouseMove .. | .cursorEnter .. => false

inductive Message where
  | identify (displayName : String) (workspaceId : Option WorkspaceId) (machines : ℕ)
  | docFull (doc : WorkspaceDoc)
  | update (update : WorkspaceUpdate)
  | input (events : List InputEvent)
  | cursorOwner (machine : MachineId)
  | ping (nonce : ℕ)
  | pong (nonce : ℕ)
  | goodbye (reason : String)
deriving DecidableEq

end InputShare
