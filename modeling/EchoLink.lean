import EchoLink.CText
import EchoLink.RecordFile
import EchoLink.Protocol
import EchoLink.FileDb
import EchoLink.UndoLog
import EchoLink.WalLog
import EchoLink.WalRoundTrip
import EchoLink.WalCalls
import EchoLink.WalRollback
import EchoLink.WalCrash
import EchoLink.CleanLog
import EchoLink.CutText
import EchoLink.TornLog
import EchoLink.Redo
import EchoLink.InterruptedRecovery
import EchoLink.SequentialLog
import EchoLink.LogSplice
import EchoLink.Runs
import EchoLink.WalInterleaving
import EchoLink.SharedOffset
import EchoLink.Auth
import EchoLink.UserTable
import EchoLink.PasswordHash
import EchoLink.Registrations
import EchoLink.ShortRegistrations
import EchoLink.RoleChanges
import EchoLink.BoundedQueue
import EchoLink.SlotBag
import EchoLink.SerialScan
import EchoLink.Eviction
import EchoLink.Ring
import EchoLink.AudioPath
import EchoLink.JitterBuffers
import EchoLink.JitterOrder
import EchoLink.Playout
import EchoLink.PartialMap
import EchoLink.LinkedList
import EchoLink.PackedArray
import EchoLink.TwoViews
import EchoLink.SlotDirectory
import EchoLink.RoomManager
import EchoLink.Handlers
import EchoLink.ArgFields
import EchoLink.RoomList
import EchoLink.RoomCalls
import EchoLink.ServerState
import EchoLink.Effects
import EchoLink.ServerSteps
import EchoLink.RoomRecords
import EchoLink.RoomAgreement
import EchoLink.Privileges
import EchoLink.RoomIds
import EchoLink.Restart
import EchoLink.MixerIndex
import EchoLink.References
import EchoLink.ClientTable
import EchoLink.TaskPool
import EchoLink.CommandStream
import EchoLink.CommandOrder
import EchoLink.ConcurrentCreate
import EchoLink.RoomSteps
import EchoLink.JoinLeave
import EchoLink.JoinDisconnect
import EchoLink.CachedCount
import EchoLink.RecordRaces
import EchoLink.Moderation
import EchoLink.ModerationRaces
import EchoLink.Mixer
import EchoLink.MixerRuns
import EchoLink.Datagrams
import EchoLink.Saturation
import EchoLink.MixRoom
import EchoLink.MixBuffers
import EchoLink.MixOrder
import EchoLink.SpeakerCount
import EchoLink.LockOrder
import EchoLink.LockEvents
import EchoLink.FdMap
import EchoLink.Responses
import EchoLink.FailedJoin
import EchoLink.RefCounts
import EchoLink.Logout
import EchoLink.Kick
import EchoLink.RoomNames
import EchoLink.RoomListing
import EchoLink.Simulation
import EchoLink.ChatService
import EchoLink.ServerChat
import EchoLink.CommandAnswers
import EchoLink.ChatInvariants
import EchoLink.ServiceRefinement
import EchoLink.TidyFiles
import EchoLink.ServiceLives
import EchoLink.ChatHistory
import EchoLink.ServiceSafety
import EchoLink.PlayoutBuffer
import EchoLink.VoiceService
import EchoLink.VoiceStreams
import EchoLink.VoiceServer
import EchoLink.VoiceRefinement
import EchoLink.VoiceSchedule
import EchoLink.VoiceSafety
import EchoLink.Conference
import EchoLink.AudioClient
import EchoLink.ConferenceCall
