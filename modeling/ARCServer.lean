import ARCServer.CodecDelivery
import ARCServer.GuestReplies
import ARCServer.UserCache
import ARCServer.ComparisonSoundness
import ARCServer.EnrolledFeatures
import ARCServer.GuestFeatures
import ARCServer.PixelConversion
import ARCServer.WorkingEngines
import ARCServer.DeadlockFreedom
import ARCServer.RequestEffects
import ARCServer.EnrolmentAnswers
import ARCServer.EntryLog
import ARCServer.BufferOwnership
import ARCServer.HeaderWedging
import ARCServer.LoadSafety
import ARCServer.FeatureRestart
import ARCServer.DataRefinement
import ARCServer.NetworkWords
import ARCServer.MuduoBuffer
import ARCServer.BufferOperations
import ARCServer.BufferRefinement
import ARCServer.BufferWords
import ARCServer.CodecOnBuffer
import ARCServer.CodecSend
import ARCServer.GuardedData
import ARCServer.GuestHandlers
import ARCServer.GuestVisits
import ARCServer.GuestConcurrency
import ARCServer.RequestAccounting
import ARCServer.SerialRuns
import ARCServer.ConnectionLoop
import ARCServer.GuestSerial
import ARCServer.MainLoop
import ARCServer.MainService
import ARCServer.SharedEngines
import ARCServer.SharedPermits
import ARCServer.EngineRestarts
import ARCServer.MainEnrolment
import ARCServer.MainEngine
import ARCServer.GuestBuffers
