import LosKernel.Device.Transfer
import LosKernel.Userprog.SingleWriter
import LosKernel.Mm.PoolInit
import LosKernel.Mm.Translation
import LosKernel.Mm.Protection
import LosKernel.Thread.Pid
import LosKernel.Userprog.WaitExit
import LosKernel.Mm.LostPage
import LosKernel.Mm.AllOrNothing
import LosKernel.Device.ReaderWakeup
import LosKernel.Device.IdeChannel
import LosKernel.Fs.InodeIo
import LosKernel.Fs.Release
import LosKernel.Fs.FileLimits
import LosKernel.Fs.FailedMkdir
import LosKernel.Fs.FailedCreate
import LosKernel.Shell.NameBuffers
import LosKernel.Shell.CwdCache
import LosKernel.Shell.Readline
import LosKernel.Text.Search
import LosKernel.Text.Format
