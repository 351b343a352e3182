import AiiOs.Ledger.Rewrap
import AiiOs.Store.Experiences
import AiiOs.Store.Relationships
import AiiOs.Store.Replay
import AiiOs.Continuity.ReadBack
import AiiOs.Continuity.PutBack
import AiiOs.Updates.Refused
import AiiOs.PluginFacility.Commit
import AiiOs.PluginFacility.Lease
import AiiOs.PluginFacility.Admission
import AiiOs.PluginFacility.Settlement
import AiiOs.PackageFmt.Extracted
import AiiOs.PackageFmt.Revocation
import AiiOs.Outbox.AtMostOnce
import AiiOs.Subagents.Histories
import AiiOs.CanonicalJson.Profile
import AiiOs.Ledger.StoredForm
import AiiOs.Ledger.Boundary
import AiiOs.Witness.Receipts
import AiiOs.Store.Portraits
import AiiOs.Store.Worded
import AiiOs.Store.Standing
import AiiOs.Outbox.Tokens
import AiiOs.Cognitive.Dispatch
import AiiOs.Cognitive.WorkQueue
import AiiOs.Audio.Pump
import AiiOs.Broker.Publish
import AiiOs.Conversation.Truncated
import AiiOs.Conversation.Rounds
import AiiOs.Conversation.Intake
import AiiOs.Store.Superseded
import AiiOs.Memory.Near
import AiiOs.Escrow.Snapshot
import AiiOs.PluginHost.Acquire
import AiiOs.Machine.Collect
import AiiOs.Cognitive.View
import AiiOs.Memory.Meaning
import AiiOs.Subagents.Redelivery
import AiiOs.Inbound.Arrivals
import AiiOs.Tools.Edit
import AiiOs.Store.LockGap
import AiiOs.Cognitive.SafeWakes
