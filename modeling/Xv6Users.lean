import Xv6Users.Userland.LineBuffers
import Xv6Users.Userland.Prompts
import Xv6Users.Userland.Grep
import Xv6Users.Userland.BufferEnds
import Xv6Users.Userland.RoundTrips
import Xv6Users.Userland.OptionSyntax
import Xv6Users.Userland.MemberNames
import Xv6Users.Kernel.Privilege
import Xv6Users.Kernel.Reaping
import Xv6Users.Kernel.DirOwner
import Xv6Users.Kernel.ModeChange
import Xv6Users.Kernel.References
import Xv6Users.Kernel.CacheRuns
import Xv6Users.Kernel.EntryRights
import Xv6Users.Kernel.DirectoryRuns
import Xv6Users.Kernel.BufferRuns
import Xv6Users.Kernel.LogSpace
import Xv6Users.Kernel.CrashRecovery
import Xv6Users.Kernel.SharedFile
import Xv6Users.Kernel.Pipes
import Xv6Users.Kernel.ConsoleInput
import Xv6Users.Kernel.OpenFileRuns
import Xv6Users.Kernel.ExecCalls
import Xv6Users.Kernel.Arguments
import Xv6Users.Kernel.WriteBlocks
import Xv6Users.Kernel.PathNames
import Xv6Users.Tools.ImageRuns
import Xv6Users.Userland.MemoryMoves
import Xv6Users.Userland.Chmod
import Xv6Users.Userland.NumberTexts
import Xv6Users.Userland.HeapSizes
