import InputShare.Core.Replicas
import InputShare.Agent.Core
import InputShare.Agent.Restarts
import InputShare.Agent.Permission
import InputShare.Agent.Sessions
import InputShare.Agent.Agreement
import InputShare.Agent.Forwarding
import InputShare.Lib.Symbolic
import InputShare.Net.Connections
import InputShare.Net.Handshake
import InputShare.Net.Outsider
import InputShare.Lib.Inbox
import InputShare.Net.Actor
import InputShare.Net.Channel
import InputShare.Net.Lifecycle
import InputShare.Net.Overlap
import InputShare.Agent.Saves
import InputShare.Core.Unpairing
import InputShare.Net.Sync
import InputShare.Agent.Meeting
import InputShare.Agent.Reunion
import InputShare.Agent.Switches
import InputShare.Agent.Skipping
import InputShare.Core.Clock
import InputShare.Core.Crossing
import InputShare.Core.Screens
import InputShare.Agent.Adoption
import InputShare.Agent.Reachable
import InputShare.Agent.Routing
import InputShare.Agent.Duo
import InputShare.Net.Mesh
import InputShare.Agent.Edits
import InputShare.Agent.Placement
import InputShare.Core.Abandoned
import InputShare.Core.Backup
import InputShare.Core.Overflow
import InputShare.Input.Watchdog
import InputShare.Input.Inject
import InputShare.Agent.Refresher
import InputShare.Lib.Streams
import InputShare.Lib.Utf8
import InputShare.Net.Frames
import InputShare.Net.Signature
import InputShare.Ui.Snapping
import InputShare.Agent.Toggle
import InputShare.Core.Launches
import InputShare.Input.Replay
import InputShare.Lib.Retries
import InputShare.Net.Dialling
import InputShare.Net.Discovery
import InputShare.Net.Transport
import InputShare.Net.Redialling
import InputShare.Input.Pointer
import InputShare.Agent.Trust
import InputShare.Core.Rays
import InputShare.Ui.Panel
