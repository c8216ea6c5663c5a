import Mathlib.Tactic

/-! # Registered frames

The identifier of each frame, the longest payload it may carry, and what a session must have before
it carries it; the settings with their ranges, and the codes a session closes under.
-/

namespace ObjectTransfer.Codec

def hardMaxFramePayload : ℕ := 16 * 1024 * 1024

namespace FrameType

def hello : ℕ := 0x01
def settings : ℕ := 0x03
def settingsAck : ℕ := 0x05
def authContext : ℕ := 0x07
def sessionOpen : ℕ := 0x09
def sessionAccept : ℕ := 0x0b
def sessionReject : ℕ := 0x0d
def packageDescriptor : ℕ := 0x21
def manifestRequest : ℕ := 0x23
def manifestPage : ℕ := 0x25
def progressivePage : ℕ := 0x27
def «seal» : ℕ := 0x29
def «have» : ℕ := 0x2b
def rangeRequest : ℕ := 0x2d
def proofBundle : ℕ := 0x2f
def dataRecord : ℕ := 0x31
def rangeCancel : ℕ := 0x33
def capacity : ℕ := 0x40
def transitVerified : ℕ := 0x43
def chunkDurable : ℕ := 0x45
def chunkAtRestVerified : ℕ := 0x47
def publishReceipt : ℕ := 0x49
def datagramCredit : ℕ := 0x60
def codingEpochOpen : ℕ := 0x62
def genState : ℕ := 0x64
def genDone : ℕ := 0x66
def codingEpochClose : ℕ := 0x68
def ping : ℕ := 0x80
def goAway : ℕ := 0x83
def error : ℕ := 0x85
def sourceScoreHint : ℕ := 0x86
def jobPriorityUpdate : ℕ := 0x89

end FrameType

namespace ErrorCode

def unknownCriticalFrame : ℕ := 0x0101
def malformedFrame : ℕ := 0x0102
def frameTooLarge : ℕ := 0x0103
def unsupportedVersion : ℕ := 0x0104
def invalidSetting : ℕ := 0x0105
def duplicateSetting : ℕ := 0x0106
def authenticationFailed : ℕ := 0x0201
def authorizationFailed : ℕ := 0x0202
def replayRejected : ℕ := 0x0203
def resourceLimit : ℕ := 0x0502
def experimentNotNegotiated : ℕ := 0x0701

end ErrorCode

namespace SettingId

def maxControlFramePayload : ℕ := 0x01
def maxDataRecordPayload : ℕ := 0x03
def maxManifestPagePayload : ℕ := 0x05
def reliableLaneLimit : ℕ := 0x07
def idleTimeoutMs : ℕ := 0x09

end SettingId

namespace SettingDefault

def maxControlFramePayload : ℕ := 1048576
def maxDataRecordPayload : ℕ := 262144
def maxManifestPagePayload : ℕ := 1048576
def reliableLaneLimit : ℕ := 16
def idleTimeoutMs : ℕ := 90000

end SettingDefault

def settingBounds : List (ℕ × ℕ × ℕ) :=
  [(SettingId.maxControlFramePayload, 1024, 16777216),
    (SettingId.maxDataRecordPayload, 65536, 262144),
    (SettingId.maxManifestPagePayload, 65536, 1048576),
    (SettingId.reliableLaneLimit, 1, 256), (SettingId.idleTimeoutMs, 1000, 600000)]

namespace ExtensionId

def datagramFec : ℕ := 0x01
def push : ℕ := 0x08

end ExtensionId

def frameRegistry : List (ℕ × ℕ) :=
  [(FrameType.hello, 4 * 1024), (FrameType.settings, 16 * 1024), (FrameType.settingsAck, 0),
    (FrameType.authContext, 64 * 1024), (FrameType.sessionOpen, 64 * 1024),
    (FrameType.sessionAccept, 64 * 1024), (FrameType.sessionReject, 64 * 1024),
    (FrameType.packageDescriptor, 1024 * 1024), (FrameType.manifestRequest, 64 * 1024),
    (FrameType.manifestPage, 1024 * 1024), (FrameType.progressivePage, 1024 * 1024),
    (FrameType.seal, 256 * 1024), (FrameType.have, 4 * 1024 * 1024),
    (FrameType.rangeRequest, 1024 * 1024), (FrameType.proofBundle, hardMaxFramePayload),
    (FrameType.dataRecord, 256 * 1024), (FrameType.rangeCancel, 64 * 1024),
    (FrameType.capacity, 4 * 1024), (FrameType.transitVerified, 64 * 1024),
    (FrameType.chunkDurable, 64 * 1024), (FrameType.chunkAtRestVerified, 64 * 1024),
    (FrameType.publishReceipt, 64 * 1024), (FrameType.datagramCredit, 4 * 1024),
    (FrameType.codingEpochOpen, 64 * 1024), (FrameType.genState, 64 * 1024),
    (FrameType.genDone, 64 * 1024), (FrameType.codingEpochClose, 64 * 1024),
    (FrameType.ping, 0), (FrameType.goAway, 4 * 1024), (FrameType.error, 64 * 1024),
    (FrameType.sourceScoreHint, 64 * 1024), (FrameType.jobPriorityUpdate, 64 * 1024)]

def registeredPayloadLimit (frameType : ℕ) : Option ℕ := frameRegistry.lookup frameType

/-- The frames a session carries before it is authenticated. -/
def authenticationExempt : List ℕ :=
  [FrameType.hello, FrameType.settings, FrameType.settingsAck, FrameType.authContext,
    FrameType.sessionOpen, FrameType.sessionAccept, FrameType.sessionReject, FrameType.ping,
    FrameType.error]

/-- Whether a frame needs an authenticated session; an unregistered one does. -/
def requiresAuthentication (frameType : ℕ) : Bool := !authenticationExempt.contains frameType

def extensionRegistry : List (ℕ × ℕ) :=
  [(FrameType.datagramCredit, ExtensionId.datagramFec),
    (FrameType.codingEpochOpen, ExtensionId.datagramFec),
    (FrameType.genState, ExtensionId.datagramFec), (FrameType.genDone, ExtensionId.datagramFec),
    (FrameType.codingEpochClose, ExtensionId.datagramFec)]

def requiredExtension (frameType : ℕ) : Option ℕ := extensionRegistry.lookup frameType

end ObjectTransfer.Codec
