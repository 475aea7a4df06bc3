import RiscvVp.BurstAtomicity
import RiscvVp.ModelHistory
import RiscvVp.PairedHistory
import RiscvVp.Verdict
import RiscvVp.ExtensionLife
import RiscvVp.PollSchedule
import RiscvVp.Firmware
import RiscvVp.BlockStream
import RiscvVp.SkidBuffer
import RiscvVp.ResetVector
import RiscvVp.TestPasses
import RiscvVp.Liveness
import RiscvVp.ModelLiveness
import RiscvVp.Interference
import RiscvVp.ModelIsolation
