import UBoot.Lib.Packed
import UBoot.Common.EnvEdit
import UBoot.LibGeneric.Crc32
import UBoot.Common.EnvEditSpec
import UBoot.Common.Nvedit
import UBoot.Common.NveditSpec
import UBoot.Common.EnvFlash
import UBoot.Common.NveditCrc
import UBoot.Tools.FwSetenv
import UBoot.Common.EnvNand
import UBoot.Lib.Run
import UBoot.Common.EnvNandRun
import UBoot.Tools.FwEnvInit
import UBoot.Lib.Blocks
import UBoot.Tools.FwFlash
import UBoot.Common.EnvFlashRun
import UBoot.LibGeneric.Lmb
import UBoot.Lib.Ranges
import UBoot.LibGeneric.LmbSpec
import UBoot.LibGeneric.LmbSets
import UBoot.LibGeneric.LmbRun
import UBoot.LibGeneric.LmbAlloc
import UBoot.Net.Packet
import UBoot.Net.Receive
import UBoot.Lib.Links
import UBoot.Net.Defragment
import UBoot.Net.DefragmentHoles
import UBoot.Net.DefragmentRun
import UBoot.Common.Flash
import UBoot.Common.FlashWrite
import UBoot.Common.FlashErase
import UBoot.Cpu.Envm
import UBoot.Drivers.SdCard
import UBoot.Net.Tftp
import UBoot.Net.TftpSpec
import UBoot.Net.TftpRun
import UBoot.Lib.Queue
import UBoot.Drivers.SdCardWrite
import UBoot.Cpu.KinetisEnvm
import UBoot.Cpu.LpcEnvm
import UBoot.Common.Command
import UBoot.Common.CommandSplit
import UBoot.Common.CommandScan
import UBoot.Common.LineEdit
import UBoot.Common.LineEditBounds
import UBoot.Lib.Recent
import UBoot.Common.HistoryRecall
import UBoot.Common.Mtdparts
import UBoot.Common.MtdpartsInvariant
import UBoot.Common.MtdpartsNames
import UBoot.Common.MtdpartsCurrent
import UBoot.Common.MtdpartsGenerate
import UBoot.Common.MtdpartsText
import UBoot.Common.MtdpartsRoundTrip
import UBoot.Lib.Grouped
import UBoot.Net.Nfs
import UBoot.Net.NfsRun
import UBoot.Net.Arp
import UBoot.Net.ArpRun
import UBoot.Common.Kermit
import UBoot.Common.KermitRun
import UBoot.Common.SRecord
import UBoot.Common.SRecordRoundTrip
import UBoot.Fs.Fat
import UBoot.Fs.FatContents
import UBoot.Disk.PartDos
import UBoot.Disk.PartDosSpec
import UBoot.LibGeneric.Byteorder
import UBoot.Tools.Mkimage
import UBoot.Common.Image
import UBoot.Tools.MkimageSpec
import UBoot.Common.ImageMulti
import UBoot.Fs.FatDir
import UBoot.Fs.FatBuffers
import UBoot.Fs.FatScan
import UBoot.Fs.FatRoot
import UBoot.Fs.FatVolume
import UBoot.Drivers.NandUtil
import UBoot.Lib.Scatter
import UBoot.Drivers.NandSkipBad
import UBoot.Common.Bootm
import UBoot.Common.BootmOrder
import UBoot.Drivers.PciAuto
import UBoot.Drivers.PciAutoRun
import UBoot.Fs.Jffs2
import UBoot.Fs.Jffs2List
import UBoot.Fs.Jffs2Lookup
import UBoot.Fs.Jffs2Read
import UBoot.Common.GetenvR
import UBoot.Tools.FwFlashNor
import UBoot.Fs.Ext2
import UBoot.Fs.Ext2Blocks
import UBoot.Fs.Ext2Map
import UBoot.Fs.Ext2Read
import UBoot.LibGeneric.LmbComplete
import UBoot.Common.EnvFlashSave
import UBoot.Common.AbbrevSpec
import UBoot.Common.AddrSpec
import UBoot.Cpu.A2fEnvm
import UBoot.Cpu.A2fEnvmRun
import UBoot.Cpu.M2sEnvm
import UBoot.Cpu.Stm32Envm
import UBoot.Board.DragonFlash
import UBoot.Net.DefragmentBounds
import UBoot.Cpu.SysTick
import UBoot.Common.MtdpartsBounds
import UBoot.Common.MtdpartsFind
import UBoot.Common.MtdpartsAdd
import UBoot.Common.ParseLine
import UBoot.Common.Hwconfig
import UBoot.Common.HwconfigSpec
import UBoot.Common.MacroBuffers
import UBoot.Common.MacroSpec
import UBoot.Common.LineEditSpec
import UBoot.Lib.Prefix
import UBoot.Common.AutoComplete
import UBoot.Common.AutoCompleteSpec
import UBoot.Lib.OnesComplement
import UBoot.Net.Cksum
import UBoot.Net.EchoReply
import UBoot.Lib.Loop
import UBoot.Net.Cdp
import UBoot.Net.NfsPath
import UBoot.Fs.FatTable
import UBoot.Common.SRecordDecode
import UBoot.Lib.Logged
import UBoot.Net.NfsBounds
import UBoot.Net.BootpVendor
import UBoot.Net.DhcpOptions
import UBoot.Net.Dns
import UBoot.Net.DnsAnswer
import UBoot.Drivers.RtcDate
import UBoot.Drivers.RtcDateSpec
import UBoot.Lib.Ring
import UBoot.LibGeneric.Circbuf
import UBoot.Common.MemmoveWd
import UBoot.Disk.PartDosCycle
import UBoot.Drivers.NandErase
import UBoot.Drivers.NandReadSkipBad
import UBoot.Disk.PartEfi
import UBoot.Disk.PartEfiSpec
import UBoot.Fs.FatCache
import UBoot.Fs.FatRounds
import UBoot.Fs.FatDirScan
import UBoot.Fs.FatTraverse
import UBoot.Fs.FatLongName
import UBoot.Fs.FatLongNameSpec
import UBoot.Fs.Jffs2NandCache
import UBoot.Lib.Scratch
import UBoot.Fs.Jffs2Path
import UBoot.Fs.Jffs2Scan
import UBoot.Fs.Jffs2ScanSpec
import UBoot.Fs.Jffs2ScanRun
import UBoot.Lib.ByteOrder
import UBoot.Drivers.CfiFlash
import UBoot.Lib.Programming
import UBoot.Drivers.CfiFlashWrite
import UBoot.Drivers.CfiFlashBuffer
import UBoot.Drivers.CfiSector
import UBoot.LibGeneric.Gunzip
import UBoot.LibGeneric.Lzop
import UBoot.Fs.Ext2Devread
import UBoot.Fs.Ext2Dir
import UBoot.Fs.Ext2DirSpec
import UBoot.LibGeneric.NumberDigits
import UBoot.LibGeneric.NumberRead
import UBoot.Common.MtdpartsSize
