import Gemios.Loop
import Gemios.Bytes
import Gemios.FatBasic
import Gemios.FatNames
import Gemios.FatMount
import Gemios.FatTable
import Gemios.FatDir
import Gemios.FatPath
import Gemios.FatFile
import Gemios.FatRemove
import Gemios.FatGeometry
import Gemios.FatTableSpec
import Gemios.Chain
import Gemios.FatChain
import Gemios.FatDirSpec
import Gemios.FatVolume
import Gemios.Mkfs
import Gemios.MkfsSpec
import Gemios.FatOverwrite
import Gemios.FatPathSpec
import Gemios.FatBounds
import Gemios.FatMirror
import Gemios.FatReach
import Gemios.FatMirrorOps
import Gemios.FatMirrorRun
import Gemios.FatDepth
import Gemios.FatSlots
import Gemios.FatLfnSpec
import Gemios.FatDirFormat
import Gemios.FatLfnParse
import Gemios.FatShortSpec
import Gemios.FatPlace
import Gemios.FatGrow
import Gemios.FatStore
import Gemios.FatCreate
import Gemios.Align
import Gemios.Pmm
import Gemios.PmmSpec
import Gemios.LinkedQueue
import Gemios.Rtos
import Gemios.RtosSched
import Gemios.RtosPass
import Gemios.RtosWait
import Gemios.RtosCalls
import Gemios.RtosRun
import Gemios.RtosSem
import Gemios.RtosEvent
import Gemios.RtosMutex
import Gemios.RtosPriority
import Gemios.RtosTask
import Gemios.RtosFair
import Gemios.RtosLife
import Gemios.RtosState
import Gemios.RtosQueue
import Gemios.RtosQueueSpec
import Gemios.RtosQueueFifo
import Gemios.Arena
import Gemios.HeapRep
import Gemios.HeapCalls
import Gemios.HeapRun
import Gemios.HeapSpec
import Gemios.HeapAligned
import Gemios.Elf
import Gemios.AsBasic
import Gemios.AsOperand
import Gemios.AsModRm
import Gemios.Ld
import Gemios.LdTable
import Gemios.LdAccept
import Gemios.LdResolve
import Gemios.LdOrder
import Gemios.Make
import Gemios.MakeRun
import Gemios.MakePlan
import Gemios.MakeBuild
import Gemios.MakeFresh
import Gemios.Pack
import Gemios.LdPlace
import Gemios.LdReloc
import Gemios.LdImage
import Gemios.LdLayout
import Gemios.LdFile
import Gemios.CycleRing
import Gemios.Xhci
import Gemios.XhciRing
import Gemios.XhciTransfer
import Gemios.XhciRecover
import Gemios.XhciCalls
import Gemios.UsbTree
import Gemios.UsbStorage
import Gemios.UsbHotplug
import Gemios.CString
import Gemios.Editor
import Gemios.EditorLines
import Gemios.EditorRefine
import Gemios.EditorSave
import Gemios.Frames
import Gemios.Audio
import Gemios.AudioStream
import Gemios.AudioOrder
import Gemios.DyingDevice
import Gemios.FatFaults
import Gemios.FatFaultsSound
import Gemios.FatFaultsFront
import Gemios.FatRollback
import Gemios.Glob
import Gemios.FatPattern
import Gemios.Mcopy
import Gemios.FatAlloc
import Gemios.FatNewFile
import Gemios.FlakyDevice
import Gemios.FatFaultsRead
import Gemios.FatReadThrough
import Gemios.FatCopy
import Gemios.HeapSizes
import Gemios.PmmInit
import Gemios.RtosSleep
import Gemios.AsExpr
import Gemios.MakePattern
import Gemios.AsMacro
import Gemios.MakeExpand
import Gemios.MakeParse
import Gemios.MakeFixed
import Gemios.AsText
import Gemios.AsInstr
import Gemios.TextLines
import Gemios.AsLine
import Gemios.AsPreprocess
import Gemios.AsString
import Gemios.AsActs
import Gemios.AsFrame
import Gemios.AsTable
import Gemios.AsJumps
import Gemios.LapRing
import Gemios.XhciEventRing
import Gemios.XhciQueued
import Gemios.UsbRoute
import Gemios.UsbMasked
import Gemios.UsbChunks
import Gemios.RecordWalk
import Gemios.UsbConfig
import Gemios.UsbAttribution
import Gemios.UsbWalkBounds
import Gemios.UsbAudioBounds
import Gemios.Utf8Text
import Gemios.EditorUtf8
import Gemios.Lines
import Gemios.EditorRoundTrip
import Gemios.UsbEnumerate
import Gemios.EditorColumn
import Gemios.EditorCursor
import Gemios.Wav
import Gemios.WavResample
import Gemios.WavPaths
import Gemios.WavPlay
import Gemios.WavSafe
import Gemios.AudioLastFrame
import Gemios.ShellCdRun
import Gemios.Painting
import Gemios.Vga
import Gemios.Video
import Gemios.VideoPixels
import Gemios.VideoMirror
import Gemios.VideoRun
import Gemios.VideoPage
import Gemios.ShellEdit
import Gemios.ShellSpec
import Gemios.ShellKeys
import Gemios.ShellHistory
import Gemios.ShellConsole
import Gemios.BoundedBuffer
import Gemios.Printf
import Gemios.PrintfPieces
import Gemios.PrintfText
import Gemios.PrintfExact
import Gemios.AcpiSafe
import Gemios.Isqrt
import Gemios.BlockCopy
import Gemios.Memmove
import Gemios.Ps2Kbd
import Gemios.Ps2Strokes
import Gemios.FileImage
import Gemios.ElfObject
import Gemios.ElfWrite
import Gemios.AsAccept
import Gemios.ElfRead
import Gemios.ToolChain
import Gemios.NameTree
import Gemios.FatTree
import Gemios.FatTreeEdit
import Gemios.FatTreeRun
import Gemios.MkfsVolume
